import SqlInlay.Proofs.Sql.Clauses
import SqlInlay.Proofs.Sql.Stretches

/-!
# What fits stays on the line

A clause with a single item is measured on one line before it is printed, and every group inside it
that may be broken is measured again where it is printed.  The two measures are taken by different
means: the first writes the item on an empty line and counts, the second adds the width of a group
to the column that the page has come to.  `formatQuery_fits` says that they agree: what fits by the
first stays on the line of the keywords, down to the last column.

**Widths.**  `codeWidth_writeAll` and `codeWidth_writeAll_cons` compare what tokens take behind a
line with what they take on a line of their own.  The difference is the space in front of them, and
a sign, which may be read otherwise at the start of a line.

**Flat is printed.**  As long as no group runs over, printing writes on the open line what flat
writing does (`printNodes_flat`).  The induction is over the nodes and the contents of groups, and
`Page.Open` says of each page that it goes on writing on its last line.

**The last column.**  Inside a group or in front of a node there is room for one more column, and so
there is for the space that a group is measured with, whether it is written or not.  At the end of
the item there need not be.

* `endsTight` — where a group stands there without a space in front, one column is missing, and the
  group is broken though it would fit (`not_formatQuery_fits`).
* `overflows_of_fits` — with that column a group at the end of what fits does not run over.
* `printNodes_of_fits` — an item that fits is written flat, with its last node taken apart.

**Clauses.**  `keeps_item` puts the item behind the keywords of its clause, and `Page.Presents`
carries the line from the page to the text of the whole query, whatever is printed before and after.
-/

namespace SqlInlay.Sql

open SqlInlay.Text

/-! ## Subqueries at any depth

The measure on one line is for items without comments.  Subqueries are excluded as well, at any
depth: they are broken whatever their width.  An item without either is a run of tokens, whatever
groups they are in.
-/

mutual

/-- A subquery stands in the node. -/
def Node.hasQueries : Node → Bool
  | .token _ => false
  | .comment _ => false
  | .query _ _ _ => true
  | .list _ operands _ => anyItemHasQueries operands

/-- A subquery stands in one of the nodes. -/
def anyNodeHasQueries : List Node → Bool
  | [] => false
  | n :: ns => n.hasQueries || anyNodeHasQueries ns

/-- A subquery stands in one of the items. -/
def anyItemHasQueries : List (Item Node) → Bool
  | [] => false
  | ⟨nodes, _⟩ :: is => anyNodeHasQueries nodes || anyItemHasQueries is

end

mutual

lemma Node.mergeJoins_of_plain (n : Node) (h : n.hasQueries = false) : n.mergeJoins = n := by
  match n with
  | .token t => rfl
  | .comment c => rfl
  | .query _ _ _ => cases h
  | .list opening operands closing => rw [Node.mergeJoins, mergeItems_of_plain operands h]

/-- Joins are put together in subqueries only, and in the clauses of a script. -/
lemma mergeNodes_of_plain (ns : List Node) (h : anyNodeHasQueries ns = false) :
    mergeNodes ns = ns := by
  match ns with
  | [] => rfl
  | n :: ns =>
    obtain ⟨hn, hns⟩ := Bool.or_eq_false_iff.1 h
    rw [mergeNodes, n.mergeJoins_of_plain hn, mergeNodes_of_plain ns hns]

lemma mergeItems_of_plain (is : List (Item Node)) (h : anyItemHasQueries is = false) :
    mergeItems is = is := by
  match is with
  | [] => rfl
  | ⟨nodes, _⟩ :: is =>
    obtain ⟨hnodes, his⟩ := Bool.or_eq_false_iff.1 h
    rw [mergeItems, mergeNodes_of_plain nodes hnodes, mergeItems_of_plain is his]

end

mutual

lemma Node.exists_tokens (n : Node) (h : n.hasComments = false) (h' : n.hasQueries = false) :
    ∃ (t : Token) (ts : List Token), n.strokes = (t :: ts).map .write := by
  match n with
  | .token t => exact ⟨t, [], rfl⟩
  | .comment c => cases h
  | .query _ _ _ => cases h'
  | .list opening operands closing =>
    obtain ⟨ts, hts⟩ := exists_tokens_of_contents operands h h'
    exact ⟨opening, ts ++ [closing], by simp [Node.strokes, hts]⟩

/-- Nodes without comments and subqueries are tokens. -/
lemma exists_tokens_of_nodes (ns : List Node) (h : anyNodeHasComments ns = false)
    (h' : anyNodeHasQueries ns = false) : ∃ ts : List Token, nodesStrokes ns = ts.map .write := by
  match ns with
  | [] => exact ⟨[], rfl⟩
  | n :: ns =>
    obtain ⟨hn, hns⟩ := Bool.or_eq_false_iff.1 h
    obtain ⟨hn', hns'⟩ := Bool.or_eq_false_iff.1 h'
    obtain ⟨t, ts, hts⟩ := n.exists_tokens hn hn'
    obtain ⟨us, hus⟩ := exists_tokens_of_nodes ns hns hns'
    exact ⟨t :: ts ++ us, by rw [nodesStrokes, hts, hus, List.map_append]⟩

lemma exists_tokens_of_contents (is : List (Item Node)) (h : anyItemHasComments is = false)
    (h' : anyItemHasQueries is = false) :
    ∃ ts : List Token, contentsStrokes is = ts.map .write := by
  match is with
  | [] => exact ⟨[], rfl⟩
  | ⟨nodes, _⟩ :: is =>
    obtain ⟨hnodes, his⟩ := Bool.or_eq_false_iff.1 h
    obtain ⟨hnodes', his'⟩ := Bool.or_eq_false_iff.1 h'
    obtain ⟨ts, hts⟩ := exists_tokens_of_nodes nodes hnodes hnodes'
    obtain ⟨us, hus⟩ := exists_tokens_of_contents is his his'
    exact ⟨ts ++ us, by rw [contentsStrokes, hts, hus, List.map_append]⟩

end

lemma anyNodeHasComments_append (ns ms : List Node) :
    anyNodeHasComments (ns ++ ms) = (anyNodeHasComments ns || anyNodeHasComments ms) := by
  induction ns with
  | nil => rfl
  | cons n ns ih => simp [anyNodeHasComments, ih, Bool.or_assoc]

lemma anyNodeHasQueries_append (ns ms : List Node) :
    anyNodeHasQueries (ns ++ ms) = (anyNodeHasQueries ns || anyNodeHasQueries ms) := by
  induction ns with
  | nil => rfl
  | cons n ns ih => simp [anyNodeHasQueries, ih, Bool.or_assoc]

/-! ## Widths

`writeAll` writes tokens on a line one after the other, and each needs a space or not depending on
what the line ends in.  So widths add up as long as lines end alike.
-/

namespace Line

variable {case : KeywordCase} {l m : Line}

/-- The width of the space in front of a token. -/
def gapWidth (l : Line) (t : Token) : Nat := if l.last.any (needsSpace · t) then 1 else 0

lemma gapWidth_le (l : Line) (t : Token) : l.gapWidth t ≤ 1 := by
  unfold gapWidth
  split <;> decide

lemma codeWidth_write (l : Line) (t : Token) :
    (l.write case t).codeWidth = l.codeWidth + l.gapWidth t + (spelling case t).length := by
  simp only [codeWidth, write, spaced, gapWidth, List.foldr_cons, Piece.text]
  split
  · simp only [List.foldr_cons, List.length_singleton]
    omega
  · omega

lemma isClosed_write (h : l.isClosed = false) (t : Token) :
    (l.write case t).isClosed = false := by
  have hnote : l.note = none := by
    simp only [isClosed, Bool.or_eq_false_iff] at h
    simpa using h.1
  simp [isClosed, write, hnote]

/-- Tokens take as much space behind a line as behind another that ends alike. -/
lemma codeWidth_writeAll (h : l.last = m.last) (ts : List Token) :
    (writeAll case ts l).codeWidth + m.codeWidth =
      (writeAll case ts m).codeWidth + l.codeWidth := by
  induction ts generalizing l m with
  | nil => exact Nat.add_comm _ _
  | cons t ts ih =>
    have hlast : (l.write case t).last = (m.write case t).last := by simp [write, h]
    have hgap : l.gapWidth t = m.gapWidth t := by simp [gapWidth, h]
    have hwidth := ih hlast
    rw [codeWidth_write, codeWidth_write, hgap] at hwidth
    rw [writeAll_cons, writeAll_cons]
    omega

/-- Behind a line, tokens take the space that they take on a line of their own, and a gap in front:
if the first of them is no sign that is read otherwise there. -/
lemma codeWidth_writeAll_cons {t : Token} (h : Trace.after l.last t = .after none t)
    (ts : List Token) :
    (writeAll case (t :: ts) l).codeWidth =
      l.codeWidth + l.gapWidth t + (writeAll case (t :: ts) (.empty 0)).codeWidth := by
  have hlast : (l.write case t).last = ((Line.empty 0).write case t).last := congrArg some h
  have hwidth := @codeWidth_writeAll case _ _ hlast ts
  have hempty : (Line.empty 0).codeWidth = 0 ∧ (Line.empty 0).gapWidth t = 0 := ⟨rfl, rfl⟩
  rw [codeWidth_write, codeWidth_write] at hwidth
  rw [writeAll_cons, writeAll_cons]
  omega

lemma codeWidth_le_writeAll (ts : List Token) (l : Line) :
    l.codeWidth ≤ (writeAll case ts l).codeWidth := by
  induction ts generalizing l with
  | nil => exact le_rfl
  | cons t ts ih =>
    refine le_trans ?_ (ih (l.write case t))
    rw [codeWidth_write]
    omega

lemma isClosed_writeAll (h : l.isClosed = false) (ts : List Token) :
    (writeAll case ts l).isClosed = false := by
  induction ts generalizing l with
  | nil => exact h
  | cons t ts ih => exact ih (isClosed_write h t)

lemma width_lt_writeAll {t : Token} (ht : spelling case t ≠ []) (ts : List Token) (l : Line) :
    l.width < (writeAll case (t :: ts) l).width := by
  have hpos := List.length_pos_iff.2 ht
  have hle : _ ≤ (writeAll case ts (l.write case t)).codeWidth := codeWidth_le_writeAll ts _
  rw [codeWidth_write] at hle
  rw [width, width, indent_writeAll, writeAll_cons]
  omega

lemma width_le_writeAll (ts : List Token) (l : Line) : l.width ≤ (writeAll case ts l).width := by
  rw [width, width, indent_writeAll]
  exact Nat.add_le_add_left (codeWidth_le_writeAll ts l) _

end Line

section Flat

variable {case : KeywordCase} {l : Line} {ts : List Token}

lemma Node.flat_eq_writeAll {n : Node} (h : n.strokes = ts.map .write) (l : Line) :
    n.flat case l = writeAll case ts l := by
  rw [n.flat_eq, h, ← writeAll_eq]

lemma flatNodes_eq_writeAll {ns : List Node} (h : nodesStrokes ns = ts.map .write) (l : Line) :
    flatNodes case ns l = writeAll case ts l := by
  rw [flatNodes_eq, h, ← writeAll_eq]

lemma flatContents_eq_writeAll {is : List (Item Node)} (h : contentsStrokes is = ts.map .write)
    (l : Line) : flatContents case is l = writeAll case ts l := by
  rw [flatContents_eq, h, ← writeAll_eq]

lemma flatNodes_append (ns ms : List Node) (l : Line) :
    flatNodes case (ns ++ ms) l = flatNodes case ms (flatNodes case ns l) := by
  rw [flatNodes_eq, nodesStrokes_append, List.foldl_append, ← flatNodes_eq, ← flatNodes_eq]

/-- Behind a line, nodes take one column more at most than on a line of their own, if no sign is
read otherwise there. -/
lemma width_flatNodes_le (ns : List Node) (h : anyNodeHasComments ns = false)
    (h' : anyNodeHasQueries ns = false) (hask : ∀ t, Trace.after l.last t = .after none t) :
    (flatNodes case ns l).width ≤ l.width + 1 + flatWidth case ns := by
  obtain ⟨ts, hts⟩ := exists_tokens_of_nodes ns h h'
  rw [flatWidth, flatNodes_eq_writeAll hts, flatNodes_eq_writeAll hts, Line.width, indent_writeAll,
    Line.width]
  cases ts with
  | nil => exact Nat.le_add_right _ _
  | cons t ts =>
    have hgap := l.gapWidth_le t
    rw [Line.codeWidth_writeAll_cons (hask t) ts]
    omega

/-- A parenthesis leaves the same trace everywhere. -/
lemma after_openParen {opening : Token} (h : opening.kind = .openParen) (before : Option Trace) :
    Trace.after before opening = .after none opening := by
  simp [Trace.after, isUnary, h]

/-- A group takes its width behind any line, and the space in front of it. -/
lemma codeWidth_flat_list {opening closing : Token} {operands : List (Item Node)}
    (hopening : opening.kind = .openParen) (h : anyItemHasComments operands = false)
    (h' : anyItemHasQueries operands = false) (l : Line) :
    ((Node.list opening operands closing).flat case l).codeWidth =
      l.codeWidth + l.gapWidth opening + flatWidth case [.list opening operands closing] := by
  obtain ⟨ts, hts⟩ := exists_tokens_of_contents operands h h'
  have hstrokes : (Node.list opening operands closing).strokes =
      (opening :: (ts ++ [closing])).map .write := by
    simp [Node.strokes, hts]
  have hflat : flatWidth case [.list opening operands closing] =
      (writeAll case (opening :: (ts ++ [closing])) (.empty 0)).codeWidth :=
    congrArg Line.codeWidth (Node.flat_eq_writeAll hstrokes _)
  rw [Node.flat_eq_writeAll hstrokes, hflat]
  exact Line.codeWidth_writeAll_cons (after_openParen hopening _) _

/-- A group behind nodes. -/
lemma flatWidth_concat_list {opening closing : Token} {operands : List (Item Node)}
    (hopening : opening.kind = .openParen) (h : anyItemHasComments operands = false)
    (h' : anyItemHasQueries operands = false) (front : List Node) :
    flatWidth case (front ++ [.list opening operands closing]) =
      flatWidth case front + (flatNodes case front (.empty 0)).gapWidth opening +
        flatWidth case [.list opening operands closing] :=
  (congrArg Line.codeWidth (flatNodes_append _ _ _)).trans (codeWidth_flat_list hopening h h' _)

lemma indent_flat {n : Node} (h : n.hasComments = false) (h' : n.hasQueries = false) (l : Line) :
    (n.flat case l).indent = l.indent := by
  obtain ⟨t, ts, hts⟩ := n.exists_tokens h h'
  rw [Node.flat_eq_writeAll hts, indent_writeAll]

end Flat

/-! ## Writing on an open line

A page that has no line to start and no comment at the end of its last line writes there, and its
column is the width of that line.  Where this holds, printing is writing on a line, and what the
page knows besides plays no part.
-/

/-- The page goes on writing on its last line: no break has been asked for, and the line takes more
code. -/
structure Page.Open (p : Page) (l : Line) (ls : List Line) : Prop where
  lines : p.lines = l :: ls
  fresh : p.fresh = none
  isOpen : l.isClosed = false

lemma Page.onLast_onLast (p : Page) (f g : Line → Line) :
    (p.onLast f).onLast g = p.onLast fun l => g (f l) := by
  unfold onLast
  cases hp : p.lines <;> simp [hp]

lemma Page.onLast_of_forall_eq (p : Page) {f : Line → Line} (hf : ∀ l, f l = l) :
    p.onLast f = p := by
  unfold onLast
  split
  · rfl
  · rename_i l ls hp
    rw [hf, ← hp]

namespace Page.Open

variable {case : KeywordCase} {p : Page} {l : Line} {ls : List Line}

lemma column (h : p.Open l ls) : p.column = l.width := by
  simp [Page.column, h.fresh, h.lines]

lemma continueAt (h : p.Open l ls) (indent : Nat) : (p.continueAt indent).Open l ls :=
  ⟨h.lines, h.fresh, h.isOpen⟩

lemma onLast (h : p.Open l ls) {f : Line → Line} (hf : (f l).isClosed = false) :
    (p.onLast f).Open (f l) ls :=
  ⟨by simp [Page.onLast, h.lines], by simp [Page.onLast, h.lines, h.fresh], hf⟩

lemma write (h : p.Open l ls) (t : Token) : p.write case t = p.onLast (·.write case t) := by
  have hready : p.ready = p := by simp [Page.ready, h.fresh, h.lines, h.isOpen]
  rw [Page.write, hready]

lemma punctuate (h : p.Open l ls) (t : Token) :
    p.punctuate case t = p.onLast (·.write case t) := by
  rw [← h.write, Page.punctuate]
  simp [h.fresh, h.lines, h.isOpen]

lemma put_write (h : p.Open l ls) (t : Token) :
    p.put case (.write t) = p.onLast (·.write case t) := by
  rw [Page.put]
  split
  · exact h.punctuate t
  · exact h.write t

lemma printTokens (h : p.Open l ls) (ts : List Token) :
    printTokens case ts p = p.onLast (writeAll case ts) := by
  induction ts generalizing p l with
  | nil => exact (p.onLast_of_forall_eq fun _ => rfl).symm
  | cons t ts ih =>
    have hwritten := h.onLast (f := (·.write case t)) (Line.isClosed_write h.isOpen t)
    rw [Sql.printTokens, List.foldl_cons, h.write]
    exact (ih hwritten).trans (p.onLast_onLast _ _)

end Page.Open

/-! ## Printing flat -/

section Printing

variable {style : Style} {p : Page} {l : Line} {ls : List Line}

/-- A group that does not run over is written flat if its contents are. -/
lemma print_list {opening closing : Token} {operands : List (Item Node)}
    (h : anyItemHasComments operands = false) (h' : anyItemHasQueries operands = false)
    (hp : p.Open l ls)
    (hfits : overflows style p (.list opening operands closing) operands = false)
    (hcontents : ∀ q, q.Open (l.write style.keywordCase opening) ls →
      printContents style operands q = q.onLast (flatContents style.keywordCase operands)) :
    (Node.list opening operands closing).print style p =
      p.onLast ((Node.list opening operands closing).flat style.keywordCase) := by
  have hopen : (l.write style.keywordCase opening).isClosed = false :=
    Line.isClosed_write hp.isOpen opening
  have hopened := hp.onLast (f := (·.write style.keywordCase opening)) hopen
  obtain ⟨ts, hts⟩ := exists_tokens_of_contents operands h h'
  have hinside := hopened.onLast (f := flatContents style.keywordCase operands) (by
    rw [flatContents_eq_writeAll hts]
    exact Line.isClosed_writeAll hopen ts)
  simp only [Node.print, hfits, hp.write, Bool.false_eq_true, if_false]
  rw [hcontents _ hopened, hinside.punctuate, Page.onLast_onLast, Page.onLast_onLast]
  rfl

mutual

lemma Node.print_flat (n : Node) (hn : n.Sound) (h : n.hasComments = false)
    (h' : n.hasQueries = false) {p : Page} {l : Line} (hp : p.Open l ls)
    (hwidth : (n.flat style.keywordCase l).width < style.maxLineWidth) :
    n.print style p = p.onLast (n.flat style.keywordCase) := by
  match n with
  | .token t =>
    rw [print_token, hp.put_write]
    rfl
  | .comment c => cases h
  | .query _ _ _ => cases h'
  | .list opening operands closing =>
    obtain ⟨hopening, -, hoperands⟩ := hn
    refine print_list h h' hp ?_ fun q hq => printContents_flat operands hoperands h h' hq ?_
    · have hcolumns :
          ((Node.list opening operands closing).flat style.keywordCase l).codeWidth = _ :=
        codeWidth_flat_list hopening h h' l
      rw [Line.width, indent_flat h h'] at hwidth
      simp only [overflows, hp.column, Line.width, Bool.and_eq_false_iff, decide_eq_false_iff_not]
      omega
    · exact (Line.width_le_writeAll [closing] _).trans_lt hwidth

/-- **Flat is printed.**  Nodes that end in front of the last column are printed as they are
measured. -/
lemma printNodes_flat (ns : List Node) (hns : NodesSound ns) (h : anyNodeHasComments ns = false)
    (h' : anyNodeHasQueries ns = false) {p : Page} {l : Line} (hp : p.Open l ls)
    (hwidth : (flatNodes style.keywordCase ns l).width < style.maxLineWidth) :
    printNodes style ns p = p.onLast (flatNodes style.keywordCase ns) := by
  match ns with
  | [] => exact (p.onLast_of_forall_eq fun _ => rfl).symm
  | n :: ns =>
    obtain ⟨hcomments, hrest⟩ := Bool.or_eq_false_iff.1 h
    obtain ⟨hqueries, hrest'⟩ := Bool.or_eq_false_iff.1 h'
    obtain ⟨t, ts, hts⟩ := n.exists_tokens hcomments hqueries
    obtain ⟨us, hus⟩ := exists_tokens_of_nodes ns hrest hrest'
    have hle : (n.flat style.keywordCase l).width ≤
        (flatNodes style.keywordCase ns (n.flat style.keywordCase l)).width := by
      rw [flatNodes_eq_writeAll hus]
      exact Line.width_le_writeAll us _
    have hopen : (n.flat style.keywordCase l).isClosed = false := by
      rw [Node.flat_eq_writeAll hts]
      exact Line.isClosed_writeAll hp.isOpen _
    rw [printNodes, n.print_flat hns.1 hcomments hqueries hp (hle.trans_lt hwidth),
      printNodes_flat ns hns.2 hrest hrest' (hp.onLast hopen) hwidth, Page.onLast_onLast]
    rfl

lemma printContents_flat (is : List (Item Node)) {commas : Bool} (his : ItemsSound commas is)
    (h : anyItemHasComments is = false) (h' : anyItemHasQueries is = false) {p : Page} {l : Line}
    (hp : p.Open l ls)
    (hwidth : (flatContents style.keywordCase is l).width < style.maxLineWidth) :
    printContents style is p = p.onLast (flatContents style.keywordCase is) := by
  match is with
  | [] => exact (p.onLast_of_forall_eq fun _ => rfl).symm
  | ⟨nodes, comma⟩ :: is =>
    obtain ⟨hcomments, hrest⟩ := Bool.or_eq_false_iff.1 h
    obtain ⟨hqueries, hrest'⟩ := Bool.or_eq_false_iff.1 h'
    obtain ⟨ts, hts⟩ := exists_tokens_of_nodes nodes hcomments hqueries
    obtain ⟨us, hus⟩ := exists_tokens_of_contents is hrest hrest'
    have hle : (flatNodes style.keywordCase nodes l).width ≤ (flatContents style.keywordCase is
        (flatNodes style.keywordCase nodes l)).width := by
      rw [flatContents_eq_writeAll hus]
      exact Line.width_le_writeAll us _
    have hopen : (flatNodes style.keywordCase nodes l).isClosed = false := by
      rw [flatNodes_eq_writeAll hts]
      exact Line.isClosed_writeAll hp.isOpen _
    rw [printContents, printNodes_flat nodes his.1 hcomments hqueries hp (hle.trans_lt hwidth),
      printContents_flat is his.2.2 hrest hrest' (hp.onLast hopen) hwidth, Page.onLast_onLast]
    rfl

end

/-! ## The last column -/

/-- The nodes end in a group that may be broken, with no space in front of it.  Measuring such a
group counts a space, which is the one column that it may lack. -/
def endsTight (case : KeywordCase) (nodes : List Node) : Bool :=
  match nodes.getLast? with
  | some (.list opening operands closing) =>
    operands.length ≥ 2 && !nodes.dropLast.isEmpty &&
      flatWidth case nodes ==
        flatWidth case nodes.dropLast + flatWidth case [.list opening operands closing]
  | _ => false

/-- A group at the end of what fits does not run over.  Its width is measured with a column for a
space in front of it, which is written in most places; where none is, `endsTight` has asked for the
column instead. -/
lemma overflows_of_fits {front : List Node} {opening closing : Token} {operands : List (Item Node)}
    {q : Page} (hopening : opening.kind = .openParen)
    (hoperands : anyItemHasComments operands = false)
    (hoperands' : anyItemHasQueries operands = false)
    (h : anyNodeHasComments front = false) (h' : anyNodeHasQueries front = false)
    (hq : q.Open (flatNodes style.keywordCase front l) ls)
    (hask : ∀ t, Trace.after l.last t = .after none t)
    (hfits : l.width + 1 +
      flatWidth style.keywordCase (front ++ [.list opening operands closing]) +
      (endsTight style.keywordCase (front ++ [.list opening operands closing])).toNat ≤
        style.maxLineWidth) :
    overflows style q (.list opening operands closing) operands = false := by
  simp only [overflows, hq.column, Bool.and_eq_false_iff, decide_eq_false_iff_not]
  by_cases hseveral : operands.length ≥ 2
  swap
  · exact .inl hseveral
  right
  by_cases hnil : front = []
  · subst hnil
    rw [List.nil_append] at hfits
    rw [show flatNodes style.keywordCase [] l = l from rfl]
    omega
  -- a space in front of the group, or the column that `endsTight` asks for instead
  have hfront : (flatNodes style.keywordCase front l).width ≤ _ :=
    width_flatNodes_le front h h' hask
  have hwhole : flatWidth style.keywordCase (front ++ [.list opening operands closing]) = _ :=
    flatWidth_concat_list hopening hoperands hoperands' front
  by_cases hgap : (flatNodes style.keywordCase front (.empty 0)).gapWidth opening = 0
  · rw [hgap] at hwhole
    have htight : endsTight style.keywordCase (front ++ [.list opening operands closing]) =
        true := by
      simp [endsTight, hseveral, hnil, hwhole]
    rw [htight, Bool.toNat_true] at hfits
    omega
  · omega

/-- The last node of what fits is written flat. -/
lemma print_of_fits {front : List Node} {n : Node} {q : Page} (hn : n.Sound)
    (hn' : n.hasComments = false) (hn'' : n.hasQueries = false)
    (hsolid : ∀ t, .write t ∈ n.strokes → Line.spelling style.keywordCase t ≠ [])
    (h : anyNodeHasComments front = false) (h' : anyNodeHasQueries front = false)
    (hq : q.Open (flatNodes style.keywordCase front l) ls)
    (hask : ∀ t, Trace.after l.last t = .after none t)
    (hfits : l.width + 1 + flatWidth style.keywordCase (front ++ [n]) +
      (endsTight style.keywordCase (front ++ [n])).toNat ≤ style.maxLineWidth)
    (hwidth : (flatNodes style.keywordCase (front ++ [n]) l).width ≤ style.maxLineWidth) :
    n.print style q = q.onLast (n.flat style.keywordCase) := by
  match n with
  | .token t =>
    rw [print_token, hq.put_write]
    rfl
  | .comment c => cases hn'
  | .query _ _ _ => cases hn''
  | .list opening operands closing =>
    obtain ⟨hopening, -, hoperands⟩ := hn
    rw [flatNodes_append] at hwidth
    refine print_list hn' hn'' hq (overflows_of_fits hopening hn' hn'' h h' hq hask hfits)
      fun r hr => printContents_flat operands hoperands hn' hn'' hr ?_
    refine lt_of_lt_of_le (Line.width_lt_writeAll (t := closing) ?_ [] _) hwidth
    exact hsolid closing (by simp [Node.strokes])

lemma printNodes_append (ns ms : List Node) (p : Page) :
    printNodes style (ns ++ ms) p = printNodes style ms (printNodes style ns p) := by
  induction ns generalizing p with
  | nil => rfl
  | cons n ns ih => exact ih (n.print style p)

/-- **What fits is written flat**, down to the last column: nodes without comments and subqueries
that end within the width, with a space in front and one more column where they end tight. -/
lemma printNodes_of_fits {nodes : List Node} (hnodes : NodesSound nodes)
    (h : anyNodeHasComments nodes = false) (h' : anyNodeHasQueries nodes = false)
    (hsolid : ∀ t, .write t ∈ nodesStrokes nodes → Line.spelling style.keywordCase t ≠ [])
    (hp : p.Open l ls) (hask : ∀ t, Trace.after l.last t = .after none t)
    (hfits : l.width + 1 + flatWidth style.keywordCase nodes +
      (endsTight style.keywordCase nodes).toNat ≤ style.maxLineWidth) :
    printNodes style nodes p = p.onLast (flatNodes style.keywordCase nodes) := by
  rcases List.eq_nil_or_concat nodes with rfl | ⟨front, n, rfl⟩
  · exact (p.onLast_of_forall_eq fun _ => rfl).symm
  have hwidth : (flatNodes style.keywordCase (front.concat n) l).width ≤ style.maxLineWidth :=
    (width_flatNodes_le _ h h' hask).trans ((Nat.le_add_right _ _).trans hfits)
  rw [List.concat_eq_append] at *
  rw [anyNodeHasComments_append, Bool.or_eq_false_iff] at h
  rw [anyNodeHasQueries_append, Bool.or_eq_false_iff] at h'
  obtain ⟨hfront, hn, -⟩ := nodesSound_append.1 hnodes
  obtain ⟨hcomments, -⟩ := Bool.or_eq_false_iff.1 h.2
  obtain ⟨hqueries, -⟩ := Bool.or_eq_false_iff.1 h'.2
  have hsolid' : ∀ t, .write t ∈ n.strokes → Line.spelling style.keywordCase t ≠ [] :=
    fun t ht => hsolid t (by simp [nodesStrokes, ht])
  have hflat : flatNodes style.keywordCase (front ++ [n]) =
      fun m => n.flat style.keywordCase (flatNodes style.keywordCase front m) :=
    funext fun m => flatNodes_append front [n] m
  -- the front ends before the last column, for the last node has something to write
  obtain ⟨t, ts, hts⟩ := n.exists_tokens hcomments hqueries
  have hbefore : (flatNodes style.keywordCase front l).width < style.maxLineWidth := by
    refine lt_of_lt_of_le ?_ hwidth
    rw [congrFun hflat l, Node.flat_eq_writeAll hts]
    exact Line.width_lt_writeAll (hsolid' t (by simp [hts])) ts _
  obtain ⟨us, hus⟩ := exists_tokens_of_nodes front h.1 h'.1
  have hopen := hp.onLast (f := flatNodes style.keywordCase front) (by
    rw [flatNodes_eq_writeAll hus]
    exact Line.isClosed_writeAll hp.isOpen us)
  rw [printNodes_append, printNodes_flat front hfront h.1 h'.1 hp hbefore, printNodes, printNodes,
    print_of_fits hn hcomments hqueries hsolid' h.1 h'.1 hopen hask hfits hwidth,
    Page.onLast_onLast, hflat]

/-! ## Clauses -/

/-- Nodes without comments have none at their end. -/
lemma core_of_plain {nodes : List Node} (h : anyNodeHasComments nodes = false) :
    core nodes = nodes := by
  rcases List.eq_nil_or_concat nodes with rfl | ⟨front, n, rfl⟩
  · rfl
  rw [List.concat_eq_append, anyNodeHasComments_append, Bool.or_eq_false_iff] at h
  have hn : n.isComment = false := by
    cases n with
    | comment c => cases h.2
    | token t => rfl
    | query opening script closing => rfl
    | list opening operands closing => rfl
  simp [core, hn]

/-- A single item without subqueries is printed as it is, whatever becomes of joins. -/
lemma body_asPrinted {c : Clause Node} {nodes : List Node} {comma : Bool}
    (h : anyNodeHasQueries nodes = false) (hc : c.body = .items [⟨nodes, comma⟩]) :
    (c.asPrinted style).body = .items [⟨nodes, comma⟩] := by
  unfold Clause.asPrinted
  split
  · exact hc
  · rw [Clause.mergeJoins, hc, mergeBody, mergeItems, mergeItems, mergeNodes_of_plain nodes h]
    split <;> rfl

/-- Keywords on a new line. -/
lemma open_keywords {keywords : List Token} (hne : keywords ≠ []) (indent : Nat) (p : Page) :
    (printTokens style.keywordCase keywords (p.breakAt indent)).Open
      (writeAll style.keywordCase keywords (.empty indent)) p.lines := by
  obtain ⟨t, ts, rfl⟩ := List.exists_cons_of_ne_nil hne
  have hopen : ((p.breakAt indent).write style.keywordCase t).Open
      ((Line.empty indent).write style.keywordCase t) p.lines :=
    ⟨rfl, rfl, by simp [Line.isClosed, Line.write, Line.empty]⟩
  rw [printTokens, List.foldl_cons, ← printTokens, hopen.printTokens]
  exact hopen.onLast (f := writeAll style.keywordCase ts) (Line.isClosed_writeAll hopen.isOpen ts)

/-- Behind words that ask for an operand, signs are read as at the start of a line. -/
lemma after_writeAll {keywords : List Token}
    (h : ∀ t ∈ keywords, t.kind.asksForOperand = true) {l : Line}
    (hl : l.last.all (·.kind.asksForOperand) = true) (t : Token) :
    Trace.after (writeAll style.keywordCase keywords l).last t = .after none t := by
  induction keywords generalizing l with
  | nil =>
    have hunary : isUnary l.last t = isUnary none t := by
      rw [isUnary_eq, isUnary_eq, hl]
      rfl
    rw [Trace.after, Trace.after, ← hunary]
    rfl
  | cons u us ih =>
    rw [List.forall_mem_cons] at h
    exact ih h.2 (l := l.write style.keywordCase u) h.1

/-- What reads as something is written as something. -/
lemma spelling_ne_nil {case : KeywordCase} {t : Token} (h : Solid ((Stroke.write t).shown case)) :
    Line.spelling case t ≠ [] := by
  intro hnil
  apply h.ne_nil
  rw [Line.spelling] at hnil
  rw [Stroke.shown, Stroke.kind, Stroke.text]
  cases hkind : t.kind with
  | keyword word =>
    rw [hkind] at hnil
    exact hnil
  | _ =>
    rw [hkind] at hnil
    rw [show t.text = [] from hnil]
    rfl

/-- The line of the keywords of a clause is kept while its body is printed. -/
lemma keeps_keywords {keywords : List Token} (hne : keywords ≠ []) {kind : ClauseKind}
    {body : Body Node} (hbody : BodySound kind body) (indent : Nat) (p : Page) :
    (printBody style indent kind.isPredicate false body
      (printTokens style.keywordCase keywords (p.breakAt indent))).Keeps
        (writeAll style.keywordCase keywords (.empty indent)) p.lines := by
  obtain ⟨ms, -, hms, -⟩ : Printed style _ _ _ (printBody style indent kind.isPredicate false
      body (printTokens style.keywordCase keywords (p.breakAt indent))) :=
    printed_body body hbody indent false _
  rw [hms]
  exact (Page.Keeps.of_lines (open_keywords hne indent p).lines).run
    (writeAll_pieces_ne_nil _ hne _) ms

/-- **A single item that fits** is written behind the keywords of its clause, on their line, and the
line is kept whatever is printed next. -/
lemma keeps_item {keywords : List Token} (hne : keywords ≠ [])
    (hwords : ∀ t ∈ keywords, t.isClauseWord = true) {nodes : List Node}
    (hnodes : NodesSound nodes) (h : anyNodeHasComments nodes = false)
    (h' : anyNodeHasQueries nodes = false)
    (hsolid : ∀ t, .write t ∈ nodesStrokes nodes → Line.spelling style.keywordCase t ≠ [])
    {ts : List Token} (hts : nodesStrokes nodes = ts.map .write) (indent : Nat) (p : Page)
    (hfits : indent + (writeAll style.keywordCase keywords (.empty 0)).codeWidth + 1 +
      flatWidth style.keywordCase nodes + (endsTight style.keywordCase nodes).toNat ≤
        style.maxLineWidth) (predicate comma : Bool) :
    (printBody style indent predicate false (.items [⟨nodes, comma⟩])
      (printTokens style.keywordCase keywords (p.breakAt indent))).Keeps
        (writeAll style.keywordCase (keywords ++ ts) (.empty indent)) p.lines := by
  have hopen : (printTokens style.keywordCase keywords (p.breakAt indent)).Open _ _ :=
    open_keywords hne indent p
  have hcolumn : (writeAll style.keywordCase keywords (.empty indent)).width =
      indent + (writeAll style.keywordCase keywords (.empty 0)).codeWidth := by
    have hwidth :=
      @Line.codeWidth_writeAll style.keywordCase (.empty indent) (.empty 0) rfl keywords
    rw [Line.width, indent_writeAll]
    exact congrArg _ hwidth
  have hfitsLine : fitsOnLine style
      (printTokens style.keywordCase keywords (p.breakAt indent)) nodes = true := by
    simp only [fitsOnLine, core_of_plain h, h, hopen.column, hcolumn, Bool.not_false, Bool.true_and,
      Bool.or_eq_true, decide_eq_true_eq]
    right
    omega
  have hask : ∀ t, Trace.after
      (writeAll style.keywordCase keywords (.empty indent)).last t = .after none t :=
    after_writeAll (fun u hu => asksForOperand_of_isClauseWord (hwords u hu)) rfl
  have hcontinued := hopen.continueAt (indent + style.indentWidth)
  have hprinted := printNodes_of_fits hnodes h h' hsolid hcontinued hask (hcolumn ▸ hfits)
  have hline : flatNodes style.keywordCase nodes (writeAll style.keywordCase keywords
      (.empty indent)) = writeAll style.keywordCase (keywords ++ ts) (.empty indent) := by
    rw [flatNodes_eq_writeAll hts, writeAll, writeAll, writeAll, List.foldl_append]
  have hkeeps : (printNodes style nodes ((printTokens style.keywordCase keywords
      (p.breakAt indent)).continueAt (indent + style.indentWidth))).Keeps
        (writeAll style.keywordCase (keywords ++ ts) (.empty indent)) p.lines := by
    rw [hprinted, ← hline]
    exact .of_lines (by simp [Page.onLast, hcontinued.lines])
  simp only [printBody, printClauseItems, hfitsLine, List.isEmpty_nil, Bool.and_true,
    if_true, Bool.false_eq_true, if_false]
  cases comma with
  | false => exact hkeeps
  | true => exact hkeeps.attach (writeAll_pieces_ne_nil _ (by simp [hne]) _) .comma ","

/-- What is written behind the keywords of a clause, in one go with them, is found behind them.  No
keyword of a clause moves up, so the line starts with them, and the line that they are on is kept by
everything that is put down later. -/
lemma exists_behind_keywords {tokens keywords ts : List Token} {parts : List (Part Token)}
    {front : List Move} {rest : List Stroke} {indent : Nat}
    (hpresents : p.Presents style.keywordCase tokens parts)
    (hsettled : Settled ((words tokens).map Word.stroke)
      (strokesOf front ++ ((keywords ++ ts).map .write ++ rest)))
    (hkeeps : p.Keeps (writeAll style.keywordCase (keywords ++ ts) (.empty indent))
      (Page.empty.run style.keywordCase front).lines)
    (hne : keywords ≠ []) (hwords : ∀ t ∈ keywords, t.isClauseWord = true) :
    ∃ above below, parts = above ++ (Part.indentation indent ++
        (writtenParts style.keywordCase (keywords ++ ts) (.empty indent) ++ below)) ∧
      Part.StartLine above ∧
      (writtenParts style.keywordCase (keywords ++ ts) (.empty indent) ++ below).head? =
        keywords.head?.map .piece := by
  obtain ⟨t, us, rfl⟩ := List.exists_cons_of_ne_nil hne
  have hmoves : strokesOf (front ++ [.breakAt indent]) = strokesOf front := by
    rw [strokesOf_append]
    exact List.append_nil _
  have hready : (Page.empty.run style.keywordCase (front ++ [.breakAt indent])).ready.lines =
      .empty indent :: (Page.empty.run style.keywordCase front).lines := by
    rw [Page.run_append]
    rfl
  have hcode : ∀ u ∈ t :: us ++ ts, u.isComment = false := by
    intro u hu
    exact proper_of_settled hsettled (.write u) (by
      rw [List.mem_append, List.mem_append]
      exact .inr (.inl (List.mem_map_of_mem hu)))
  rw [← hmoves] at hsettled
  obtain ⟨above, below, hparts, habove⟩ := hpresents.exists_stretch hsettled hready rfl hkeeps
    (by simp) (by simp [movesUp_of_isClauseWord (hwords t (List.mem_cons_self ..))]) hcode
  obtain ⟨lead, rfl, hlead⟩ := habove rfl
  exact ⟨lead, below, by rw [hparts, List.append_assoc]; rfl, hlead, rfl⟩

end Printing

/-- **What fits stays on the line.**  A clause with keywords starts a line.  If its body is a single
item without comments and subqueries, and its indentation, its keywords, a space and the item
written flat fit in the width of a line, no line break comes between its first keyword and the end
of the item; where the item ends in a group without a space in front, one column more is asked
for. -/
theorem formatQuery_fits {query : Text} {dialect : Dialect} {script : Script}
    (h : parse query dialect = .ok script) (style : Style) :
    ∃ tokens out parts, tokenize query = .ok tokens ∧
      formatQuery style dialect query = .ok out ∧
      Lossless style.keywordCase query tokens out parts ∧
      ∀ c ∈ statementsClauses script, c.keywords ≠ [] →
        ∀ nodes comma, c.body = .items [⟨nodes, comma⟩] ∨
            (c.asPrinted style).body = .items [⟨nodes, comma⟩] →
          anyNodeHasComments nodes = false → anyNodeHasQueries nodes = false →
          ∃ above indent behind, parts = above ++ (Part.indentation indent ++ behind) ∧
            Part.StartLine above ∧ behind.head? = c.keywords.head?.map .piece ∧
            (indent + (writeAll style.keywordCase c.keywords (.empty 0)).codeWidth + 1 +
                flatWidth style.keywordCase nodes + (endsTight style.keywordCase nodes).toNat ≤
                style.maxLineWidth →
              ∃ line below, behind = line ++ below ∧
                (line.filterMap Part.piece?).map .write =
                  c.keywords.map .write ++ nodesStrokes nodes ∧
                ∀ t, .blank t ∈ line → t = [' ']) := by
  obtain ⟨tokens, parts, htokens, hout, hlossless, hpresents⟩ :=
    exists_presents_of_parse h style
  obtain ⟨tokens', ms, htokens', hsettled, hpage, hlays⟩ := exists_lays_of_parse h style
  obtain rfl := Except.ok.inj (htokens.symm.trans htokens')
  refine ⟨tokens, _, parts, htokens, hout, hlossless, ?_⟩
  intro c hc hkeywords nodes comma hbody hcomments hqueries
  obtain ⟨hsound, front, body, back, indent, rfl, hstrokes, hrun⟩ := hlays c hc hkeywords
  replace hbody : (c.asPrinted style).body = .items [⟨nodes, comma⟩] :=
    hbody.elim (body_asPrinted hqueries) id
  obtain ⟨hwords, hitems⟩ := hsound
  rw [hbody] at hstrokes hrun hitems
  rw [Clause.keywords_asPrinted] at hwords hstrokes hrun
  have hsolid := solid_shown_of_settled (lexed_of_tokenize htokens) hsettled style.keywordCase
  rw [Page.run_append, Page.run_append, hrun] at hpage
  simp only [strokesOf_append, hstrokes, bodyStrokes, itemsStrokes, List.append_assoc]
    at hsettled hsolid
  by_cases hfits : indent + (writeAll style.keywordCase c.keywords (.empty 0)).codeWidth + 1 +
      flatWidth style.keywordCase nodes + (endsTight style.keywordCase nodes).toNat ≤
      style.maxLineWidth
  · obtain ⟨ts, hts⟩ := exists_tokens_of_nodes nodes hcomments hqueries
    have hspelled : ∀ t, .write t ∈ nodesStrokes nodes →
        Line.spelling style.keywordCase t ≠ [] := fun t ht =>
      spelling_ne_nil (hsolid (.write t) (by simp [ht]))
    have hkeeps : (Script.layOut style script).Keeps
        (writeAll style.keywordCase (c.keywords ++ ts) (.empty indent))
        (Page.empty.run style.keywordCase front).lines := by
      rw [hpage]
      exact (keeps_item hkeywords hwords hitems.1 hcomments hqueries hspelled hts indent _ hfits _
        comma).run (writeAll_pieces_ne_nil _ (by simp [hkeywords]) _) back
    rw [hts, ← List.append_assoc (c.keywords.map _), ← List.map_append] at hsettled
    obtain ⟨above, below, hparts, hstart, hhead⟩ :=
      exists_behind_keywords hpresents hsettled hkeeps hkeywords hwords
    refine ⟨above, indent, _, hparts, hstart, hhead, fun _ => ⟨_, below, rfl, ?_, ?_⟩⟩
    · rw [filterMap_piece?_writtenParts, List.map_append, hts]
    · exact fun t ht => blank_mem_writtenParts _ ht
  · have hkeeps : (Script.layOut style script).Keeps
        (writeAll style.keywordCase (c.keywords ++ []) (.empty indent))
        (Page.empty.run style.keywordCase front).lines := by
      rw [hpage, List.append_nil]
      exact (keeps_keywords hkeywords hitems indent _).run
        (writeAll_pieces_ne_nil _ hkeywords _) back
    rw [← List.append_nil c.keywords] at hsettled
    obtain ⟨above, below, hparts, hstart, hhead⟩ :=
      exists_behind_keywords hpresents hsettled hkeeps hkeywords hwords
    exact ⟨above, indent, _, hparts, hstart, hhead, fun hfit => absurd hfit hfits⟩

/-- A group behind an operator, in a line that is as wide as it may be. -/
theorem formatQuery_fits_exactly :
    ∃ tokens parts line below,
      Lossless .upper "where x = (a or b)" tokens "WHERE x = (a OR b)" parts ∧
      parts = line ++ below ∧ (line.filterMap Part.piece?).map Token.text =
        ["where".toList, "x".toList, "=".toList, "(".toList, "a".toList, "or".toList, "b".toList,
          ")".toList] ∧
      ∀ t, .blank t ∈ line → t = [' '] := by
  have hparse : parse "where x = (a or b)" .jpql = .ok [⟨[⟨.condition,
      [⟨.keyword .WHERE, "where", 0⟩], [], .items [⟨[.token ⟨.identifier, "x", 6⟩,
        .token ⟨.operator, "=", 8⟩, .list ⟨.openParen, "(", 10⟩
          [⟨[.token ⟨.identifier, "a", 11⟩], false⟩,
            ⟨[.token ⟨.keyword .OR, "or", 13⟩, .token ⟨.identifier, "b", 16⟩], false⟩]
          ⟨.closeParen, ")", 17⟩], false⟩], []⟩], false, []⟩] := by
    with_unfolding_all rfl
  have hformat : formatQuery { maxLineWidth := 18 } .jpql "where x = (a or b)" =
      .ok "WHERE x = (a OR b)" := by decide +kernel
  obtain ⟨tokens, out, parts, -, hout, hlossless, hclauses⟩ :=
    formatQuery_fits hparse { maxLineWidth := 18 }
  obtain rfl := Except.ok.inj (hformat.symm.trans hout)
  obtain ⟨above, indent, behind, rfl, hstart, -, hfits⟩ := hclauses _ (List.mem_cons_self ..)
    (by decide) _ _ (.inl rfl) (by decide) (by decide)
  -- the clause is at the margin, for there is no line feed in the output and no blank in front
  obtain rfl : above = [] := by
    rcases hstart with rfl | ⟨front, rfl⟩
    · rfl
    · have hfeed : '\n' ∈ "WHERE x = (a OR b)".toList := by
        rw [← hlossless.output]
        simp [Part.text]
      exact absurd hfeed (by decide)
  obtain rfl : indent = 0 := by
    by_contra hindent
    exact hlossless.first (fill indent ' ') (by simp [Part.indentation, hindent])
  obtain ⟨line, below, rfl, hline, hblanks⟩ := hfits (by decide)
  refine ⟨tokens, _, line, below, hlossless, rfl, ?_, hblanks⟩
  have htexts := congrArg (List.map Stroke.text) hline
  rw [List.map_map] at htexts
  exact htexts

/-- A clause that is as wide as a line may be is broken, inside a group at its end. -/
theorem not_formatQuery_fits :
    (parse "select f(a and b)" .jpql).map (fun script => (statementsClauses script).map fun c =>
      ((writeAll .upper c.keywords (.empty 0)).codeWidth,
        match c.body with
        | .items [⟨nodes, _⟩] => some (anyNodeHasComments nodes, anyNodeHasQueries nodes,
            flatWidth .upper nodes)
        | _ => none)) = .ok [(6, some (false, false, 10))] ∧
    formatQuery { maxLineWidth := 17 } .jpql "select f(a and b)" =
      .ok "SELECT f(\n    a\n    AND b\n)" := by
  decide +kernel

end SqlInlay.Sql
