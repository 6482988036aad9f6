import SqlInlay.Proofs.Sql.Setting

/-!
# Clauses on a page

A script is printed by one list of moves, and every clause in it, at whatever depth, by some
neighbouring ones among them: they start a line, put the keywords of the clause and print its body
behind them.  So a property of a single clause, such as that an item that fits stays on its line,
can be shown of the moves of that clause and holds in the layout of the whole query.

**Depth.**  `statementsClauses` lists the clauses of a script and of the queries inside it.  Putting
joins together leaves the list in place (`statementsClauses_merge`).

**Where.**  `Page.Lays` finds a clause among the moves.  `Printed` says so of all clauses of what is
printed, with one lemma for each function of printing, as `Charted` does for breaks; what needs no
clauses is taken from there (`Charted.printed`).

**Recursion.**  A clause stands in what is printed as a part of it (`printed_clause`), or in a part
of that; `Page.Lays.append_left` and `Page.Lays.append_right` carry it from the moves of a part to
those of the whole.  `exists_lays_of_parse` is the outcome for a query that parses.
-/

namespace SqlInlay.Sql

/-! ## Clauses at any depth -/

mutual

/-- The clauses inside a node. -/
def Node.clauses : Node → List (Clause Node)
  | .token _ => []
  | .comment _ => []
  | .query _ script _ => statementsClauses script
  | .list _ operands _ => itemsClauses operands

/-- The clauses inside some nodes. -/
def nodesClauses : List Node → List (Clause Node)
  | [] => []
  | n :: ns => n.clauses ++ nodesClauses ns

/-- The clauses inside some items. -/
def itemsClauses : List (Item Node) → List (Clause Node)
  | [] => []
  | ⟨nodes, _⟩ :: is => nodesClauses nodes ++ itemsClauses is

/-- The clauses inside the body of a clause. -/
def bodyClauses : Body Node → List (Clause Node)
  | .items is => itemsClauses is
  | .construction ⟨_, _, _, arguments, _⟩ => itemsClauses arguments

/-- Some clauses and those inside them. -/
def clausesClauses : List (Clause Node) → List (Clause Node)
  | [] => []
  | ⟨kind, keywords, leading, body, trailing⟩ :: cs =>
    ⟨kind, keywords, leading, body, trailing⟩ :: (bodyClauses body ++ clausesClauses cs)

/-- The clauses of some statements, at any depth. -/
def statementsClauses : List (Statement Node) → List (Clause Node)
  | [] => []
  | ⟨clauses, _, _⟩ :: ss => clausesClauses clauses ++ statementsClauses ss

end

lemma nodesClauses_append (ns ms : List Node) :
    nodesClauses (ns ++ ms) = nodesClauses ns ++ nodesClauses ms := by
  induction ns with
  | nil => rfl
  | cons n ns ih => simp [nodesClauses, ih]

/-! ## Joins put together -/

/-- The clause with the joins inside it put together. -/
def Clause.mergeJoins (c : Clause Node) : Clause Node := { c with body := mergeBody c.kind c.body }

lemma itemsClauses_absorbJoins (i : Item Node) (is : List (Item Node)) :
    itemsClauses (absorbJoins i is) = nodesClauses i.nodes ++ itemsClauses is := by
  induction is generalizing i with
  | nil => rfl
  | cons j is ih =>
    rw [absorbJoins]
    split
    · rw [ih, nodesClauses_append, List.append_assoc]
      rfl
    · rw [itemsClauses, ih]
      rfl

lemma itemsClauses_joinItems (is : List (Item Node)) :
    itemsClauses (joinItems is) = itemsClauses is := by
  cases is with
  | nil => rfl
  | cons i is => exact itemsClauses_absorbJoins i is

mutual

lemma Node.clauses_mergeJoins (n : Node) :
    n.mergeJoins.clauses = n.clauses.map Clause.mergeJoins := by
  match n with
  | .token t => rfl
  | .comment c => rfl
  | .query opening script closing => exact statementsClauses_merge script
  | .list opening operands closing => exact itemsClauses_merge operands

lemma nodesClauses_merge (ns : List Node) :
    nodesClauses (mergeNodes ns) = (nodesClauses ns).map Clause.mergeJoins := by
  match ns with
  | [] => rfl
  | n :: ns => simp [mergeNodes, nodesClauses, n.clauses_mergeJoins, nodesClauses_merge ns]

lemma itemsClauses_merge (is : List (Item Node)) :
    itemsClauses (mergeItems is) = (itemsClauses is).map Clause.mergeJoins := by
  match is with
  | [] => rfl
  | ⟨nodes, _⟩ :: is =>
    simp [mergeItems, itemsClauses, nodesClauses_merge nodes, itemsClauses_merge is]

lemma bodyClauses_merge (kind : ClauseKind) (body : Body Node) :
    bodyClauses (mergeBody kind body) = (bodyClauses body).map Clause.mergeJoins := by
  match body with
  | .items is =>
    rw [bodyClauses, ← itemsClauses_merge is, mergeBody, bodyClauses]
    split
    · exact itemsClauses_joinItems (mergeItems is)
    · rfl
  | .construction ⟨_, _, _, arguments, _⟩ => exact itemsClauses_merge arguments

lemma clausesClauses_merge (cs : List (Clause Node)) :
    clausesClauses (mergeClauses cs) = (clausesClauses cs).map Clause.mergeJoins := by
  match cs with
  | [] => rfl
  | ⟨kind, _, _, body, _⟩ :: cs =>
    simp [mergeClauses, clausesClauses, bodyClauses_merge kind body, clausesClauses_merge cs,
      Clause.mergeJoins]

/-- A script with its joins put together has the clauses of the script, with their joins put
together. -/
lemma statementsClauses_merge (ss : List (Statement Node)) :
    statementsClauses (mergeStatements ss) = (statementsClauses ss).map Clause.mergeJoins := by
  match ss with
  | [] => rfl
  | ⟨clauses, _, _⟩ :: ss =>
    simp [mergeStatements, statementsClauses, clausesClauses_merge clauses,
      statementsClauses_merge ss]

end

/-- The clause as it is printed in a style. -/
def Clause.asPrinted (style : Style) (c : Clause Node) : Clause Node :=
  if style.oneJoinPerLine then c else c.mergeJoins

lemma Clause.keywords_asPrinted (style : Style) (c : Clause Node) :
    (c.asPrinted style).keywords = c.keywords := by
  unfold asPrinted
  split <;> rfl

/-! ## Where clauses are printed -/

section Printing

variable {style : Style} {p p' p'' q : Page} {ss ss' : List Stroke}
  {cs cs' : List (Clause Node)} {c : Clause Node} {ms ns : List Move}

/-- The keywords and the body of a clause are as segmentation makes them. -/
structure Clause.Sound (c : Clause Node) : Prop where
  keywords : ∀ t ∈ c.keywords, t.isClauseWord = true
  body : BodySound c.kind c.body

/-- Among the moves made on a page, neighbouring ones print the clause: its keywords on a new line at
some indentation, and its body behind them. -/
def Page.Lays (style : Style) (p : Page) (ms : List Move) (c : Clause Node) : Prop :=
  c.Sound ∧ ∃ front body back indent, ms = front ++ (body ++ back) ∧
    strokesOf body = c.keywords.map .write ++ bodyStrokes c.body ∧
    (p.run style.keywordCase front).run style.keywordCase body =
      printBody style indent c.kind.isPredicate false c.body
        (printTokens style.keywordCase c.keywords
          ((p.run style.keywordCase front).breakAt indent))

lemma Page.Lays.append_left (h : p.Lays style ms c) (ns : List Move) :
    p.Lays style (ms ++ ns) c := by
  obtain ⟨hc, front, body, back, indent, rfl, hbody⟩ := h
  exact ⟨hc, front, body, back ++ ns, indent, by simp, hbody⟩

lemma Page.Lays.append_right (h : (p.run style.keywordCase ns).Lays style ms c) :
    p.Lays style (ns ++ ms) c := by
  obtain ⟨hc, front, body, back, indent, rfl, hbody, hrun⟩ := h
  exact ⟨hc, ns ++ front, body, back, indent, by simp, hbody, by rwa [Page.run_append]⟩

/-- A page comes out of moves that put some strokes and, among them, print some clauses, those
without keywords aside. -/
def Printed (style : Style) (strokes : List Stroke) (cs : List (Clause Node)) (p p' : Page) :
    Prop :=
  ∃ ms, strokesOf ms = strokes ∧ p' = p.run style.keywordCase ms ∧
    ∀ c ∈ cs, c.keywords ≠ [] → p.Lays style ms c

/-- Moves that do no harm are moves. -/
lemma Charted.printed {P : Pair} {es rest : List Stroke} {q' : Page}
    (h : Charted P es ss rest p p' q q') : Printed P.style ss [] p p' := by
  obtain ⟨ms, hstrokes, hp, -⟩ := h
  exact ⟨ms, hstrokes, hp, by simp⟩

namespace Printed

lemma nil : Printed style [] [] p p := ⟨[], rfl, rfl, by simp⟩

lemma put (s : Stroke) : Printed style [s] [] p (p.put style.keywordCase s) :=
  ⟨[.put s], rfl, rfl, by simp⟩

lemma breakAt (indent : Nat) : Printed style [] [] p (p.breakAt indent) :=
  ⟨[.breakAt indent], rfl, rfl, by simp⟩

lemma continueAt (indent : Nat) : Printed style [] [] p (p.continueAt indent) :=
  ⟨[.continueAt indent], rfl, rfl, by simp⟩

lemma separate : Printed style [] [] p p.separate := ⟨[.separate], rfl, rfl, by simp⟩

lemma append (h : Printed style ss cs p p') (h' : Printed style ss' cs' p' p'') :
    Printed style (ss ++ ss') (cs ++ cs') p p'' := by
  obtain ⟨ms, rfl, rfl, hms⟩ := h
  obtain ⟨ns, rfl, rfl, hns⟩ := h'
  refine ⟨ms ++ ns, by simp, by simp, fun c hc hkeywords => ?_⟩
  rcases List.mem_append.1 hc with hc | hc
  · exact (hms c hc hkeywords).append_left ns
  · exact (hns c hc hkeywords).append_right

/-- What is printed first has no clauses. -/
lemma then_ (h : Printed style ss [] p p') (h' : Printed style ss' cs p' p'') :
    Printed style (ss ++ ss') cs p p'' := h.append h'

/-- What is printed last has no clauses. -/
lemma last (h : Printed style ss cs p p') (h' : Printed style ss' [] p' p'') :
    Printed style (ss ++ ss') cs p p'' := by
  have hall := h.append h'
  rwa [List.append_nil] at hall

end Printed

/-! ## The recursion -/

lemma printed_tokens {tokens : List Token} (h : ∀ t ∈ tokens, t.kind.movesUp = false) :
    Printed style (tokens.map .write) [] p (printTokens style.keywordCase tokens p) := by
  have hcharted : Charted (.self style []) [] _ [] p _ p _ := charted_tokens h
  exact hcharted.printed

lemma printed_leading (indent : Nat) (comments : List Comment) :
    Printed style (comments.map .comment) [] p (printLeading indent comments p) := by
  have hcharted : Charted (.self style []) [] _ [] p _ p _ := charted_leading indent comments
  exact hcharted.printed

lemma printed_trailing (indent : Nat) (comments : List Comment) :
    Printed style (comments.map .comment) [] p (printTrailing indent comments p) := by
  have hcharted : Charted (.self style []) [] _ [] p _ p _ := charted_trailing indent comments
  exact hcharted.printed

lemma printed_comments (comments : List Comment) :
    Printed style (comments.map .comment) [] p (comments.foldl Page.comment p) := by
  have hcharted : Charted (.self style []) [] _ [] p _ p _ := charted_comments comments
  exact hcharted.printed

lemma printed_comment (indent : Nat) (c : Comment) :
    Printed style [.comment c] [] p (printComment indent p c) := by
  have hcharted : Charted (.self style []) [] _ [] p _ p _ := charted_printComment indent c
  exact hcharted.printed

lemma printed_comma (comma : Bool) :
    Printed style (commaStrokes comma) [] p (printComma comma p) := by
  have hcharted : Charted (.self style []) [] _ [] p _ p _ := charted_comma comma
  exact hcharted.printed

lemma printed_end (terminated : Bool) :
    Printed style (endStrokes terminated) [] p
      (if terminated then p.attach .semicolon ";" else p) := by
  have hcharted : Charted (.self style []) [] _ [] p _ p _ := charted_end terminated
  exact hcharted.printed

lemma printed_open {opening : Token} (h : opening.kind = .openParen) :
    Printed style [.write opening] [] p (p.write style.keywordCase opening) := by
  have hcharted : Charted (.self style []) [] _ [] p _ p _ := charted_open h
  exact hcharted.printed

lemma printed_close {closing : Token} (h : closing.kind = .closeParen)
    (indent continuation : Nat) :
    Printed style [.write closing] [] p
      (((p.breakAt indent).write style.keywordCase closing).continueAt continuation) := by
  have hcharted : Charted (.self style []) [] _ [] p _ p _ := charted_close h indent continuation
  exact hcharted.printed

lemma printed_punctuate {closing : Token} (h : closing.kind = .closeParen) :
    Printed style [.write closing] [] p (p.punctuate style.keywordCase closing) := by
  have hput : p.punctuate style.keywordCase closing =
      p.put style.keywordCase (.write closing) := by
    simp [Page.put, h, Kind.movesUp]
  rw [hput]
  exact .put (.write closing)

/-- A clause is printed by its keywords, on a new line if there are any, and its body. -/
lemma printed_clause {c : Clause Node} (h : c.Sound) (indent : Nat) (p : Page)
    (hbody : ∀ bare q, Printed style (bodyStrokes c.body) cs q
      (printBody style indent c.kind.isPredicate bare c.body q)) :
    Printed style (c.keywords.map .write ++ bodyStrokes c.body) (c :: cs) p
      (printBody style indent c.kind.isPredicate c.keywords.isEmpty c.body
        (match c.keywords with
          | [] => p
          | _ :: _ => printTokens style.keywordCase c.keywords (p.breakAt indent))) := by
  cases hc : c.keywords with
  | nil =>
    obtain ⟨ms, hstrokes, hp, hms⟩ := hbody true p
    refine ⟨ms, by simpa using hstrokes, hp, fun d hd hne => ?_⟩
    rcases List.mem_cons.1 hd with rfl | hd
    · exact absurd hc hne
    · exact hms d hd hne
  | cons t ts =>
    have hmoves : ∀ u ∈ t :: ts, u.kind.movesUp = false := fun u hu =>
      movesUp_of_isClauseWord (h.keywords u (hc ▸ hu))
    obtain ⟨ms, hstrokes, hp, hms⟩ :=
      ((Printed.breakAt indent).then_ (printed_tokens hmoves)).then_ (hbody false _)
    refine ⟨ms, hstrokes, hp, fun d hd hne => ?_⟩
    rcases List.mem_cons.1 hd with rfl | hd
    · rw [← hc] at hstrokes hp
      exact ⟨h, [], ms, [], indent, by simp, hstrokes, hp.symm⟩
    · exact hms d hd hne

mutual

lemma Node.printed (n : Node) (hn : n.Sound) (p : Page) :
    Printed style n.strokes n.clauses p (n.print style p) := by
  match n with
  | .token t =>
    rw [print_token]
    exact .put (.write t)
  | .comment c => exact .put (.comment c)
  | .query opening script closing =>
    obtain ⟨hopening, hclosing, hscript⟩ := hn
    exact (printed_open hopening).then_
      ((printed_statements script hscript _ true _).last (printed_close hclosing _ _))
  | .list opening operands closing =>
    obtain ⟨hopening, hclosing, hoperands⟩ := hn
    simp only [Node.print, Node.strokes]
    split
    · rw [← itemsStrokes_eq_contentsStrokes hoperands]
      exact (printed_open hopening).then_
        ((printed_items operands hoperands _ _).last (printed_close hclosing _ _))
    · exact (printed_open hopening).then_
        ((printed_contents operands hoperands _).last (printed_punctuate hclosing))

lemma printed_nodes (ns : List Node) (hns : NodesSound ns) (p : Page) :
    Printed style (nodesStrokes ns) (nodesClauses ns) p (printNodes style ns p) := by
  match ns with
  | [] => exact .nil
  | n :: ns => exact (n.printed hns.1 p).append (printed_nodes ns hns.2 _)

lemma printed_contents (is : List (Item Node)) {commas : Bool} (his : ItemsSound commas is)
    (p : Page) :
    Printed style (contentsStrokes is) (itemsClauses is) p (printContents style is p) := by
  match is with
  | [] => exact .nil
  | ⟨nodes, _⟩ :: is => exact (printed_nodes nodes his.1 p).append (printed_contents is his.2.2 _)

lemma printed_itemNodes (ns : List Node) (hns : NodesSound ns) (indent : Nat) (p : Page) :
    Printed style (nodesStrokes ns) (nodesClauses ns) p (printItemNodes style indent ns p) := by
  match ns with
  | [] => exact .breakAt indent
  | .comment c :: ns =>
    exact (printed_comment indent c).then_ (printed_itemNodes ns hns.2 indent _)
  | .token t :: ns =>
    exact (Printed.breakAt indent).then_
      (((Node.token t).printed hns.1 _).append (printed_nodes ns hns.2 _))
  | .query opening script closing :: ns =>
    exact (Printed.breakAt indent).then_
      (((Node.query opening script closing).printed hns.1 _).append (printed_nodes ns hns.2 _))
  | .list opening operands closing :: ns =>
    exact (Printed.breakAt indent).then_
      (((Node.list opening operands closing).printed hns.1 _).append (printed_nodes ns hns.2 _))

lemma printed_items (is : List (Item Node)) {commas : Bool} (his : ItemsSound commas is)
    (indent : Nat) (p : Page) :
    Printed style (itemsStrokes is) (itemsClauses is) p (printItems style indent is p) := by
  match is with
  | [] => exact .nil
  | ⟨nodes, comma⟩ :: is =>
    exact (Printed.continueAt _).then_ ((printed_itemNodes nodes his.1 indent _).append
      ((printed_comma comma).then_ (printed_items is his.2.2 indent _)))

lemma printed_clauseItems (is : List (Item Node)) {predicate : Bool}
    (his : ItemsSound (!predicate) is) (indent : Nat) (p : Page) :
    Printed style (itemsStrokes is) (itemsClauses is) p
      (printClauseItems style indent predicate is p) := by
  match is with
  | [] => exact .nil
  | ⟨nodes, comma⟩ :: is =>
    obtain ⟨hnodes, hcomma, his⟩ := his
    simp only [printClauseItems]
    split
    · rename_i hsingle
      obtain rfl : is = [] := by
        rw [Bool.and_eq_true, List.isEmpty_iff] at hsingle
        exact hsingle.1
      exact (Printed.continueAt _).then_ ((printed_nodes nodes hnodes _).append
        ((printed_comma comma).append .nil))
    · split
      · rename_i hpredicate
        obtain rfl : comma = false := by
          cases comma with
          | false => rfl
          | true => simp [hpredicate] at hcomma
        exact (Printed.continueAt _).then_
          ((printed_nodes nodes hnodes _).append (printed_items is his indent _))
      · exact (Printed.continueAt _).then_ ((printed_itemNodes nodes hnodes _ _).append
          ((printed_comma comma).then_ (printed_items is his _ _)))

lemma printed_body (body : Body Node) {kind : ClauseKind} (hbody : BodySound kind body)
    (indent : Nat) (bare : Bool) (p : Page) :
    Printed style (bodyStrokes body) (bodyClauses body) p
      (printBody style indent kind.isPredicate bare body p) := by
  match body with
  | .items is =>
    simp only [printBody]
    cases bare with
    | true => exact printed_items is hbody indent p
    | false => exact printed_clauseItems is hbody indent p
  | .construction ⟨new, typeName, opening, arguments, closing⟩ =>
    obtain ⟨hnew, htype, -, -, harguments⟩ := hbody
    have hnewMoves : ∀ t ∈ [new], t.kind.movesUp = false := by simp [hnew, Kind.movesUp]
    have htypeMoves : ∀ t ∈ typeName, t.kind.movesUp = false := by
      intro t ht
      rcases htype t ht with hkind | hkind <;> simp [hkind, Kind.movesUp]
    simp only [printBody]
    refine (printed_tokens hnewMoves).then_ ((printed_tokens htypeMoves).then_
      ((Printed.put (.glue opening)).then_ ?_))
    split
    · rename_i hempty
      obtain rfl := List.isEmpty_iff.1 hempty
      exact .put (.glue closing)
    · exact (printed_items arguments harguments _ _).last
        ((Printed.breakAt _).then_ (.put (.glue closing)))

lemma printed_clauses (cs : List (Clause Node)) {first : Bool} (hcs : ClausesSound first cs)
    (indent : Nat) (p : Page) :
    Printed style (clausesStrokes cs) (clausesClauses cs) p (printClauses style indent cs p) := by
  match cs with
  | [] => exact .nil
  | ⟨kind, keywords, leading, body, trailing⟩ :: cs =>
    obtain ⟨-, hkeywords, -, hbody, -, hcs⟩ := hcs
    simp only [printClauses]
    refine (printed_leading indent leading).then_ ?_
    generalize printLeading indent leading p = begun
    have hclause := printed_clause (c := ⟨kind, keywords, leading, body, trailing⟩)
      ⟨hkeywords, hbody⟩ indent begun fun bare q => printed_body body hbody indent bare q
    have hall := hclause.append
      ((printed_trailing indent trailing).then_ (printed_clauses cs hcs indent _))
    rwa [List.append_assoc] at hall

lemma printed_statements (ss : List (Statement Node)) (hss : StatementsSound ss) (indent : Nat)
    (first : Bool) (p : Page) :
    Printed style (statementsStrokes ss) (statementsClauses ss) p
      (printStatements style indent first ss p) := by
  match ss with
  | [] => exact .nil
  | ⟨clauses, terminated, trailing⟩ :: ss =>
    obtain ⟨hclauses, -, -, hss⟩ := hss
    simp only [printStatements]
    have hwritten : Printed style (clausesStrokes clauses) (clausesClauses clauses) p
        (printClauses style indent clauses
          (if !first && !Statement.isCommentOnly ⟨clauses, terminated, trailing⟩ then p.separate
            else p)) := by
      split
      · exact Printed.separate.then_ (printed_clauses clauses hclauses indent _)
      · exact printed_clauses clauses hclauses indent p
    exact hwritten.append ((printed_end terminated).then_
      ((printed_comments trailing).then_ (printed_statements ss hss indent false _)))

end

end Printing

/-- **Every clause is printed by neighbouring moves** where a query that parses is laid out.
Clauses of subqueries are among them, at any depth; only the preamble, which has no keywords, is
left out. -/
theorem exists_lays_of_parse {query : Text} {dialect : Dialect} {script : Script}
    (h : parse query dialect = .ok script) (style : Style) :
    ∃ tokens ms, tokenize query = .ok tokens ∧
      Settled ((words tokens).map Word.stroke) (strokesOf ms) ∧
      Script.layOut style script = Page.empty.run style.keywordCase ms ∧
      ∀ c ∈ statementsClauses script, c.keywords ≠ [] →
        Page.empty.Lays style ms (c.asPrinted style) := by
  obtain ⟨tokens, htokens, hscript⟩ := exists_tokens_of_parse h
  obtain ⟨hsound, hsettled⟩ := divide_segment hscript (sound_of_tokenize htokens)
  rw [leavesOf_eq true false, nodesStrokes_leaves, ← words] at hsettled
  have hprinted : Printed style (statementsStrokes script)
      ((statementsClauses script).map (Clause.asPrinted style)) .empty
      (Script.layOut style script) := by
    rw [Script.layOut]
    split
    · rename_i hjoin
      have hself : Clause.asPrinted style = id := funext fun c => if_pos hjoin
      rw [hself, List.map_id]
      exact printed_statements script hsound 0 true .empty
    · rename_i hjoin
      have hmerge : Clause.asPrinted style = Clause.mergeJoins := funext fun c => if_neg hjoin
      obtain ⟨hmerged, hstrokes⟩ := divide_mergeStatements script hsound
      rw [hmerge, ← hstrokes, ← statementsClauses_merge]
      exact printed_statements _ hmerged 0 true .empty
  obtain ⟨ms, hstrokes, hpage, hms⟩ := hprinted
  refine ⟨tokens, ms, htokens, hstrokes ▸ hsettled, hpage, fun c hc hkeywords => ?_⟩
  exact hms _ (List.mem_map_of_mem hc) (by rwa [Clause.keywords_asPrinted])

end SqlInlay.Sql
