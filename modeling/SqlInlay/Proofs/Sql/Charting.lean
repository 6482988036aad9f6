import SqlInlay.Proofs.Sql.Course

/-!
# Printing is a run of moves

Printing is a recursion over the script that writes on a page.  To say anything of all pages that
come out of it, the recursion is followed once, here, and its outcome is a list of moves: strokes
that are put and lines that are asked for.  `Charted` says that a page and its partner, on which a
script and its recasting are printed, come out of one such list, which puts given strokes and breaks
lines lawfully.  What holds of every lawful run then holds of layouts, and two agreeing scripts are
laid out alike.

**One lemma for each function.**  The lemmas `charted_…` are named after the functions of printing
and refer to each other as these do.  A function that prints one thing behind another is charted by
`Charted.append`, and no list of moves is ever written down.

**Decisions.**  Printing decides twice by width: whether a group is broken (`overflows`) and whether
an item stays on the line of its keyword (`fitsOnLine`).  Both ask for the column of the page and
for a flat width, which pages alike and agreeing scripts have in common (`overflows_recast`,
`fitsOnLine_recast`).

**Places to break.**  Each lemma about a function that may start with a line break assumes that a
line may break there.  Soundness of the script provides for it further in: a clause opens with a
keyword, and an item stands behind a comma or opens with a comment or a keyword (`MayStart`).

**Steady pages.**  A token that moves up is put where no line is asked for, unless comments are to
be passed over.  Nodes end so (`Node.endsSteady_strokes`), and so do the keywords of a clause.
-/

namespace SqlInlay.Sql

/-- Two pages come out of moves that put some strokes, behind the strokes `es` and in front of
`rest`; the moves of the second are recast. -/
def Charted (P : Pair) (es strokes rest : List Stroke) (p p' q q' : Page) : Prop :=
  ∃ ms, strokesOf ms = strokes ∧ p' = p.run P.style.keywordCase ms ∧
    q' = q.run P.style'.keywordCase (ms.map (·.recast P.recasting)) ∧
    Lawful P.style.keywordCase p es ms rest

namespace Charted

variable {P : Pair} {es ss ss' rest : List Stroke} {p p' p'' q q' q'' : Page}

lemma nil : Charted P es [] rest p p q q := ⟨[], rfl, rfl, rfl, trivial⟩

lemma breakAt (indent : Nat) (h : AllowsBetween es rest) :
    Charted P es [] rest p (p.breakAt indent) q (q.breakAt indent) :=
  ⟨[.breakAt indent], rfl, rfl, rfl, h, trivial⟩

lemma continueAt (indent : Nat) :
    Charted P es [] rest p (p.continueAt indent) q (q.continueAt indent) :=
  ⟨[.continueAt indent], rfl, rfl, rfl, trivial, trivial⟩

lemma separate (h : EndsAside es) :
    Charted P es [] rest p p.separate q q.separate :=
  ⟨[.separate], rfl, rfl, rfl, h, trivial⟩

/-- A token that moves up is put where the page is steady. -/
lemma put_of_steady (s : Stroke) (h : ∀ t, s = .write t → t.kind.movesUp = true → p.Steady es) :
    Charted P es [s] rest p (p.put P.style.keywordCase s) q
      (q.put P.style'.keywordCase (s.recast P.recasting)) :=
  ⟨[.put s], rfl, rfl, rfl, h, trivial⟩

lemma put (s : Stroke) (h : ∀ t, s = .write t → t.kind.movesUp = false) :
    Charted P es [s] rest p (p.put P.style.keywordCase s) q
      (q.put P.style'.keywordCase (s.recast P.recasting)) :=
  put_of_steady s fun t hs hmoves => absurd hmoves (by simp [h t hs])

lemma append (h : Charted P es ss (ss' ++ rest) p p' q q')
    (h' : Charted P (es ++ ss) ss' rest p' p'' q' q'') :
    Charted P es (ss ++ ss') rest p p'' q q'' := by
  obtain ⟨ms, rfl, rfl, rfl, hms⟩ := h
  obtain ⟨ns, rfl, rfl, rfl, hns⟩ := h'
  exact ⟨ms ++ ns, by simp, by simp, by simp, hms.append hns⟩

lemma cons {s : Stroke} (h : Charted P es [s] (ss ++ rest) p p' q q')
    (h' : Charted P (es ++ [s]) ss rest p' p'' q' q'') :
    Charted P es (s :: ss) rest p p'' q q'' := h.append h'

/-- Moves without strokes in front of others. -/
lemma then_ (h : Charted P es [] (ss ++ rest) p p' q q')
    (h' : Charted P es ss rest p' p'' q' q'') : Charted P es ss rest p p'' q q'' := by
  rw [← List.append_nil es] at h'
  exact h.append h'

/-- Pages that start alike come out alike. -/
lemma alike (h : Charted P es ss rest p p' q q') (hpq : p.Alike P es q)
    (hall : P.all = es ++ (ss ++ rest)) : p'.Alike P (es ++ ss) q' := by
  obtain ⟨ms, rfl, rfl, rfl, -⟩ := h
  exact hpq.run hall

end Charted

/-! ## Tokens, marks and comments -/

section Pieces

variable {P : Pair} {es rest : List Stroke} {p q : Page}

lemma Page.put_write {t : Token} (h : t.kind.movesUp = false) (case : KeywordCase) (p : Page) :
    p.put case (.write t) = p.write case t := by
  simp [Page.put, h]

/-- A token that starts a line is written there, whatever its kind. -/
lemma Page.breakAt_put_write (case : KeywordCase) (p : Page) (indent : Nat) (t : Token) :
    (p.breakAt indent).put case (.write t) = (p.breakAt indent).write case t := by
  simp only [Page.put, Page.punctuate]
  split <;> rfl

/-- A token that is a node is put as its stroke. -/
lemma print_token (style : Style) (t : Token) (p : Page) :
    (Node.token t).print style p = p.put style.keywordCase (.write t) := by
  simp only [Node.print, Page.put]
  cases t.kind <;> rfl

lemma charted_tokens {tokens : List Token} (h : ∀ t ∈ tokens, t.kind.movesUp = false) :
    Charted P es (tokens.map .write) rest p (printTokens P.style.keywordCase tokens p) q
      (printTokens P.style'.keywordCase (tokens.map P.recasting) q) := by
  induction tokens generalizing es p q with
  | nil => exact .nil
  | cons t ts ih =>
    have ht := h t (List.mem_cons_self ..)
    have hput : Charted P es [.write t] (ts.map .write ++ rest) p _ q _ :=
      .put (.write t) fun u hu => Stroke.write.inj hu ▸ ht
    rw [Stroke.recast_write, Page.put_write ht, Page.put_write (by rwa [Recasting.kind])] at hput
    exact hput.cons (ih fun u hu => h u (List.mem_cons_of_mem _ hu))

/-- The comments above a clause. -/
lemma charted_leading (indent : Nat) (comments : List Comment) :
    Charted P es (comments.map .comment) rest p (printLeading indent comments p) q
      (printLeading indent (comments.map (·.recast P.recasting)) q) := by
  induction comments generalizing es p q with
  | nil => exact .nil
  | cons c cs ih =>
    have hcomment : Charted P es [.comment c] (cs.map .comment ++ rest) p _ q _ :=
      (Charted.breakAt indent (allowsBetween_of_before (r := .comment c) rfl)).then_
        (.put (.comment c) nofun)
    exact hcomment.cons ih

lemma charted_printComment (indent : Nat) (c : Comment) :
    Charted P es [.comment c] rest p (printComment indent p c) q
      (printComment indent q (c.recast P.recasting)) := by
  have hown : (c.recast P.recasting).ownLine = c.ownLine := rfl
  unfold printComment
  rw [hown]
  split
  · exact (Charted.breakAt indent (allowsBetween_of_before (r := .comment c) rfl)).then_
      (.put (.comment c) nofun)
  · exact .put (.comment c) nofun

/-- The comments below a clause. -/
lemma charted_trailing (indent : Nat) (comments : List Comment) :
    Charted P es (comments.map .comment) rest p (printTrailing indent comments p) q
      (printTrailing indent (comments.map (·.recast P.recasting)) q) := by
  induction comments generalizing es p q with
  | nil => exact .nil
  | cons c cs ih => exact (charted_printComment indent c).cons ih

/-- Comments behind a semicolon. -/
lemma charted_comments (comments : List Comment) :
    Charted P es (comments.map .comment) rest p (comments.foldl Page.comment p) q
      ((comments.map (·.recast P.recasting)).foldl Page.comment q) := by
  induction comments generalizing es p q with
  | nil => exact .nil
  | cons c cs ih => exact (Charted.put (.comment c) nofun).cons ih

lemma charted_comma (comma : Bool) :
    Charted P es (commaStrokes comma) rest p (printComma comma p) q (printComma comma q) := by
  cases comma with
  | false => exact .nil
  | true => exact .put (.mark .comma ",") nofun

lemma charted_end (terminated : Bool) :
    Charted P es (endStrokes terminated) rest p
      (if terminated then p.attach .semicolon ";" else p) q
      (if terminated then q.attach .semicolon ";" else q) := by
  cases terminated with
  | false => exact .nil
  | true => exact .put (.mark .semicolon ";") nofun

/-- A parenthesis that closes a broken group. -/
lemma charted_close {closing : Token} (h : closing.kind = .closeParen) (indent : Nat)
    (continuation : Nat) :
    Charted P es [.write closing] rest p
      (((p.breakAt indent).write P.style.keywordCase closing).continueAt continuation) q
      (((q.breakAt indent).write P.style'.keywordCase (P.recasting closing)).continueAt
        continuation) := by
  have hbreak : AllowsBetween es ([.write closing] ++ rest) :=
    allowsBetween_of_before (by simp [Stroke.allowsBefore, h])
  have hwrite : Charted P es [.write closing] ([] ++ rest) p _ q _ :=
    (Charted.breakAt indent hbreak).then_ (.put_of_steady (.write closing) fun _ _ _ => .inl rfl)
  rw [Stroke.recast_write, Page.breakAt_put_write, Page.breakAt_put_write] at hwrite
  exact hwrite.cons (.continueAt continuation)

end Pieces

/-! ## Decisions -/

section Decisions

variable {P : Pair} {es rest : List Stroke} {p q : Page}

lemma overflows_recast (hpq : p.Alike P es q) {before : List Stroke} (group : Node)
    (operands : List (Item Node)) (hall : P.all = before ++ (group.strokes ++ rest)) :
    overflows P.style p group operands =
      overflows P.style' q (group.recast P.recasting) (recastItems P.recasting operands) := by
  have hnodes : P.all = before ++ (nodesStrokes [group] ++ rest) := by
    simpa [nodesStrokes] using hall
  have hwidth := flatWidth_recast hnodes
  simp only [recastNodes] at hwidth
  simp only [overflows, hpq.column, hwidth, length_recastItems, P.maxLineWidth]

/-- Without the comments at their end, nodes are the first of them. -/
lemma exists_core_append (nodes : List Node) : ∃ comments, nodes = core nodes ++ comments := by
  have hsuffix := List.dropWhile_suffix (l := nodes.reverse)
    fun n : Node => n.isComment && !n.isOwnLineComment
  obtain ⟨front, hfront⟩ := hsuffix
  refine ⟨front.reverse, ?_⟩
  rw [core, ← List.reverse_append, hfront, List.reverse_reverse]

lemma fitsOnLine_recast (hpq : p.Alike P es q) {nodes : List Node}
    (hall : P.all = es ++ (nodesStrokes nodes ++ rest)) :
    fitsOnLine P.style p nodes = fitsOnLine P.style' q (recastNodes P.recasting nodes) := by
  obtain ⟨comments, hcomments⟩ := exists_core_append nodes
  have hcore : P.all = es ++ (nodesStrokes (core nodes) ++ (nodesStrokes comments ++ rest)) := by
    rw [hall]
    conv_lhs => rw [hcomments]
    simp
  have hwidth := flatWidth_recast hcore
  simp only [fitsOnLine, core_recast, anyNodeHasComments_recast, any_isQuery_recast, hwidth,
    hpq.column, P.maxLineWidth]

end Decisions

/-! ## What soundness says about breaks -/

lemma exists_keyword_of_isClauseWord {t : Token} (h : t.isClauseWord = true) :
    ∃ word, t.kind = .keyword word := by
  obtain ⟨u, word, hu, hword, -⟩ := Node.exists_spells (n := .token t) h
  obtain rfl := Node.token.inj hu
  exact ⟨word, hword⟩

lemma movesUp_of_isClauseWord {t : Token} (h : t.isClauseWord = true) :
    t.kind.movesUp = false := by
  obtain ⟨word, hword⟩ := exists_keyword_of_isClauseWord h
  simp [hword, Kind.movesUp]

lemma allowsBefore_of_isClauseWord {t : Token} (h : t.isClauseWord = true) :
    (Stroke.write t).allowsBefore = true := by
  obtain ⟨word, hword⟩ := exists_keyword_of_isClauseWord h
  simp [Stroke.allowsBefore, Token.isKeyword, hword]

/-- A line may break behind comments if it may break in front of them. -/
lemma AllowsBehind.comments {es : List Stroke} (h : AllowsBehind es) (comments : List Comment) :
    AllowsBehind (es ++ comments.map .comment) := by
  rcases List.eq_nil_or_concat comments with rfl | ⟨front, c, rfl⟩
  · simpa using h
  · rw [List.concat_eq_append, List.map_append, ← List.append_assoc]
    exact allowsBehind_concat rfl

/-- A line may break behind the keywords of a clause. -/
lemma allowsBehind_keywords {keywords : List Token} (hne : keywords ≠ [])
    (h : ∀ t ∈ keywords, t.isClauseWord = true) (es : List Stroke) :
    AllowsBehind (es ++ keywords.map .write) := by
  obtain ⟨front, t, rfl⟩ := (List.eq_nil_or_concat keywords).resolve_left hne
  rw [List.concat_eq_append, List.map_append, ← List.append_assoc]
  refine allowsBehind_concat ?_
  simp [Stroke.allowsBehind, h t (by simp)]

/-- A statement that ends in a semicolon ends in a mark or a comment. -/
lemma endsAside_end (es : List Stroke) (comments : List Comment) :
    EndsAside (es ++ (endStrokes true ++ comments.map .comment)) := by
  rcases List.eq_nil_or_concat comments with rfl | ⟨front, c, rfl⟩
  · exact ⟨.mark .semicolon ";", by simp [endStrokes], rfl⟩
  · exact ⟨.comment c, by simp [← List.append_assoc], rfl⟩

/-- The keywords of a clause end steadily. -/
lemma endsSteady_keywords {keywords : List Token} (hne : keywords ≠ []) (es : List Stroke) :
    EndsSteady (es ++ keywords.map .write) := by
  obtain ⟨front, t, rfl⟩ := (List.eq_nil_or_concat keywords).resolve_left hne
  rw [List.concat_eq_append, List.map_append, ← List.append_assoc]
  exact endsSteady_concat _ rfl

/-- A node ends steadily. -/
lemma Node.endsSteady_strokes (n : Node) (es : List Stroke) : EndsSteady (es ++ n.strokes) := by
  cases n with
  | token t => exact endsSteady_concat es rfl
  | comment c => exact endsSteady_concat es rfl
  | query opening script closing =>
    rw [Node.strokes, ← List.cons_append, ← List.append_assoc]
    exact endsSteady_concat _ rfl
  | list opening operands closing =>
    rw [Node.strokes, ← List.cons_append, ← List.append_assoc]
    exact endsSteady_concat _ rfl

lemma endsSteady_nodesStrokes (ns : List Node) : EndsSteady (nodesStrokes ns) := by
  induction ns with
  | nil => simp [EndsSteady, nodesStrokes]
  | cons n ns ih => exact EndsSteady.append (by simpa using n.endsSteady_strokes []) ih

lemma endsSteady_contentsStrokes (is : List (Item Node)) : EndsSteady (contentsStrokes is) := by
  induction is with
  | nil => simp [EndsSteady, contentsStrokes]
  | cons i is ih =>
    obtain ⟨nodes, comma⟩ := i
    exact (endsSteady_nodesStrokes nodes).append ih

/-- Nodes that start with a comment or a keyword may start a line. -/
lemma allowsBetween_of_openAnew {n : Node} (h : n.isComment = true ∨ n.isKeyword = true)
    (es rest : List Stroke) : AllowsBetween es (n.strokes ++ rest) := by
  cases n with
  | token t =>
    refine allowsBetween_of_before (r := .write t) ?_
    have hkeyword : t.isKeyword = true := by
      simpa [Node.isComment, Node.comment?, Node.isKeyword, Node.token?] using h
    simp [Stroke.allowsBefore, hkeyword]
  | comment c => exact allowsBetween_of_before (r := .comment c) rfl
  | query o s c => simp [Node.isComment, Node.comment?, Node.isKeyword, Node.token?] at h
  | list o is c => simp [Node.isComment, Node.comment?, Node.isKeyword, Node.token?] at h

/-- A line may break in front of items: behind what comes before, or because they open anew. -/
def MayStart (es : List Stroke) (is : List (Item Node)) : Prop := AllowsBehind es ∨ OpenAnew is

lemma MayStart.between {es : List Stroke} {nodes : List Node} {comma : Bool}
    {is : List (Item Node)} (h : MayStart es (⟨nodes, comma⟩ :: is)) (rest : List Stroke) :
    AllowsBetween es (nodesStrokes nodes ++ rest) := by
  rcases h with h | h
  · exact h.between _
  · rcases nodes with _ | ⟨n, ns⟩
    · exact absurd h id
    · rw [nodesStrokes, List.append_assoc]
      exact allowsBetween_of_openAnew h es _

/-- Behind an item, the next one may start. -/
lemma mayStart_next {commas comma : Bool} {is : List (Item Node)}
    (h : if comma then commas = true else OpenAnew is) (es : List Stroke) :
    MayStart (es ++ commaStrokes comma) is := by
  cases comma with
  | true => exact .inl (allowsBehind_concat rfl)
  | false => exact .inr h

/-! ## The recursion

The types of a script refer to each other through groups, and so do the functions that print them.
The lemmas below are one mutual recursion over the script, with one lemma for each function.
-/

section Recursion

variable {P : Pair}

/-- The opening parenthesis of a group. -/
lemma charted_open {opening : Token} (h : opening.kind = .openParen) {es rest : List Stroke}
    {p q : Page} :
    Charted P es [.write opening] rest p (p.write P.style.keywordCase opening) q
      (q.write P.style'.keywordCase (P.recasting opening)) := by
  have hmoves : opening.kind.movesUp = false := by simp [h, Kind.movesUp]
  have hput : Charted P es [.write opening] rest p _ q _ :=
    .put (.write opening) fun u hu => Stroke.write.inj hu ▸ hmoves
  rwa [Stroke.recast_write, Page.put_write hmoves, Page.put_write (by rwa [Recasting.kind])] at hput

/-- The keywords of a clause, on a new line if there are any. -/
lemma charted_keywords (keywords : List Token) (indent : Nat) {es rest : List Stroke}
    {p q : Page} : (∀ t ∈ keywords, t.isClauseWord = true) →
    Charted P es (keywords.map .write) rest p
      (match keywords with
        | [] => p
        | _ :: _ => printTokens P.style.keywordCase keywords (p.breakAt indent)) q
      (match keywords.map P.recasting with
        | [] => q
        | _ :: _ => printTokens P.style'.keywordCase (keywords.map P.recasting)
          (q.breakAt indent)) := by
  intro h
  cases keywords with
  | nil => exact .nil
  | cons t ts =>
    have hbreak : AllowsBetween es ((t :: ts).map .write ++ rest) :=
      allowsBetween_of_before (allowsBefore_of_isClauseWord (h t (List.mem_cons_self ..)))
    exact (Charted.breakAt indent hbreak).then_
      (charted_tokens fun u hu => movesUp_of_isClauseWord (h u hu))

mutual

lemma Node.charted (n : Node) (hn : n.Sound) {es rest : List Stroke} {p q : Page}
    (hpq : p.Alike P es q) (hsteady : p.Steady es) (hall : P.all = es ++ (n.strokes ++ rest)) :
    Charted P es n.strokes rest p (n.print P.style p) q
      ((n.recast P.recasting).print P.style' q) := by
  match n with
  | .token t =>
    rw [Node.recast, print_token, print_token]
    exact .put_of_steady (.write t) fun _ _ _ => hsteady
  | .comment c => exact .put (.comment c) nofun
  | .query opening script closing =>
    obtain ⟨hopening, hclosing, hscript⟩ := hn
    rw [Node.strokes] at hall
    have hopened : Charted P es [.write opening]
        (statementsStrokes script ++ [.write closing] ++ rest) p _ q _ := charted_open hopening
    have halike := hopened.alike hpq (by simpa using hall)
    have hinside := charted_statements script hscript
      ((p.write P.style.keywordCase opening).indent + P.style.indentWidth) true halike
      (allowsBehind_concat (by simp [Stroke.allowsBehind, hopening])) nofun
      (show P.all = _ ++ (_ ++ ([.write closing] ++ rest)) by simpa using hall)
    simp only [Node.print, Node.recast, ← halike.indent, P.indentWidth, ← hpq.continuation]
    exact hopened.append (hinside.append (charted_close hclosing _ _))
  | .list opening operands closing =>
    obtain ⟨hopening, hclosing, hoperands⟩ := hn
    have hopened : Charted P es [.write opening]
        (contentsStrokes operands ++ [.write closing] ++ rest) p _ q _ := charted_open hopening
    have halike := hopened.alike hpq (by simpa [Node.strokes] using hall)
    have hdecision := overflows_recast hpq (.list opening operands closing) operands hall
    rw [Node.recast] at hdecision
    rw [Node.strokes] at hall
    simp only [Node.print, Node.recast, ← hdecision, Node.strokes]
    split
    · rw [← itemsStrokes_eq_contentsStrokes hoperands] at hall hopened ⊢
      have hinside := charted_items operands hoperands
        ((p.write P.style.keywordCase opening).indent + P.style.indentWidth) halike
        (.inl (allowsBehind_concat (by simp [Stroke.allowsBehind, hopening])))
        (show P.all = _ ++ (_ ++ ([.write closing] ++ rest)) by simpa using hall)
      simp only [← halike.indent, P.indentWidth, ← hpq.continuation]
      exact hopened.append (hinside.append (charted_close hclosing _ _))
    · have hinside := charted_contents operands hoperands halike (endsSteady_concat es rfl)
        (show P.all = _ ++ (_ ++ ([.write closing] ++ rest)) by simpa using hall)
      have hmoves : closing.kind.movesUp = true := by simp [hclosing, Kind.movesUp]
      have hclosed : ∀ (case : KeywordCase) (p : Page), p.punctuate case closing =
          p.put case (.write closing) := by
        intro case p
        simp [Page.put, hmoves]
      have hclosed' : ∀ (case : KeywordCase) (p : Page),
          p.punctuate case (P.recasting closing) = p.put case (.write (P.recasting closing)) := by
        intro case p
        simp [Page.put, hmoves]
      rw [hclosed, hclosed']
      exact hopened.append (hinside.append (.put_of_steady (.write closing) fun _ _ _ =>
        .inr ((endsSteady_concat es rfl).append (endsSteady_contentsStrokes operands))))

lemma charted_nodes (ns : List Node) (hns : NodesSound ns) {es rest : List Stroke} {p q : Page}
    (hpq : p.Alike P es q) (hsteady : p.Steady es)
    (hall : P.all = es ++ (nodesStrokes ns ++ rest)) :
    Charted P es (nodesStrokes ns) rest p (printNodes P.style ns p) q
      (printNodes P.style' (recastNodes P.recasting ns) q) := by
  match ns with
  | [] => exact .nil
  | n :: ns =>
    rw [nodesStrokes, List.append_assoc] at hall
    have hn := n.charted hns.1 hpq hsteady hall
    have hrest := charted_nodes ns hns.2 (hn.alike hpq hall) (.inr (n.endsSteady_strokes es))
      (by simpa using hall)
    exact hn.append hrest

lemma charted_contents (is : List (Item Node)) {commas : Bool} (his : ItemsSound commas is)
    {es rest : List Stroke} {p q : Page} (hpq : p.Alike P es q) (hsteady : EndsSteady es)
    (hall : P.all = es ++ (contentsStrokes is ++ rest)) :
    Charted P es (contentsStrokes is) rest p (printContents P.style is p) q
      (printContents P.style' (recastItems P.recasting is) q) := by
  match is with
  | [] => exact .nil
  | ⟨nodes, comma⟩ :: is =>
    rw [contentsStrokes, List.append_assoc] at hall
    have hnodes := charted_nodes nodes his.1 hpq (.inr hsteady) hall
    have hrest := charted_contents is his.2.2 (hnodes.alike hpq hall)
      (hsteady.append (endsSteady_nodesStrokes nodes)) (by simpa using hall)
    exact hnodes.append hrest

lemma charted_itemNodes (ns : List Node) (hns : NodesSound ns) (indent : Nat)
    {es rest : List Stroke} {p q : Page} (hpq : p.Alike P es q)
    (hbreak : AllowsBetween es (nodesStrokes ns ++ rest))
    (hall : P.all = es ++ (nodesStrokes ns ++ rest)) :
    Charted P es (nodesStrokes ns) rest p (printItemNodes P.style indent ns p) q
      (printItemNodes P.style' indent (recastNodes P.recasting ns) q) := by
  have hfresh := hpq.breakAt indent
  match ns with
  | [] => exact .breakAt indent hbreak
  | .comment c :: ns =>
    have hcomment : Charted P es [.comment c] (nodesStrokes ns ++ rest) p _ q _ :=
      charted_printComment indent c
    have hrest := charted_itemNodes ns hns.2 indent (hcomment.alike hpq hall)
      ((allowsBehind_concat rfl).between _) (by simpa [nodesStrokes, Node.strokes] using hall)
    exact hcomment.append hrest
  | .token t :: ns =>
    rw [nodesStrokes, List.append_assoc] at hall
    rw [nodesStrokes] at hbreak
    have hn := (Node.token t).charted hns.1 hfresh (.inl rfl) hall
    have hrest := charted_nodes ns hns.2 (hn.alike hfresh hall)
      (.inr (Node.endsSteady_strokes _ es)) (by simpa using hall)
    exact (Charted.breakAt indent hbreak).then_ (hn.append hrest)
  | .query opening script closing :: ns =>
    rw [nodesStrokes, List.append_assoc] at hall
    rw [nodesStrokes] at hbreak
    have hn := (Node.query opening script closing).charted hns.1 hfresh (.inl rfl) hall
    have hrest := charted_nodes ns hns.2 (hn.alike hfresh hall)
      (.inr (Node.endsSteady_strokes _ es)) (by simpa using hall)
    exact (Charted.breakAt indent hbreak).then_ (hn.append hrest)
  | .list opening operands closing :: ns =>
    rw [nodesStrokes, List.append_assoc] at hall
    rw [nodesStrokes] at hbreak
    have hn := (Node.list opening operands closing).charted hns.1 hfresh (.inl rfl) hall
    have hrest := charted_nodes ns hns.2 (hn.alike hfresh hall)
      (.inr (Node.endsSteady_strokes _ es)) (by simpa using hall)
    exact (Charted.breakAt indent hbreak).then_ (hn.append hrest)

lemma charted_items (is : List (Item Node)) {commas : Bool} (his : ItemsSound commas is)
    (indent : Nat) {es rest : List Stroke} {p q : Page} (hpq : p.Alike P es q)
    (hstart : MayStart es is) (hall : P.all = es ++ (itemsStrokes is ++ rest)) :
    Charted P es (itemsStrokes is) rest p (printItems P.style indent is p) q
      (printItems P.style' indent (recastItems P.recasting is) q) := by
  match is with
  | [] => exact .nil
  | ⟨nodes, comma⟩ :: is =>
    obtain ⟨hnodes, hcomma, his⟩ := his
    rw [itemsStrokes, List.append_assoc] at hall
    have hfirst := charted_itemNodes nodes hnodes indent
      (hpq.continueAt (indent + P.style.indentWidth)) (hstart.between _) hall
    have halike := hfirst.alike (hpq.continueAt _) hall
    have hmarked := (charted_comma comma).alike halike
      (show P.all = _ ++ (_ ++ (itemsStrokes is ++ rest)) by simpa using hall)
    have hrest := charted_items is his indent hmarked (mayStart_next hcomma _)
      (by simpa using hall)
    simp only [printItems, recastItems, P.indentWidth]
    exact (Charted.continueAt _).then_ (hfirst.append ((charted_comma comma).append hrest))

lemma charted_clauseItems (is : List (Item Node)) {predicate : Bool}
    (his : ItemsSound (!predicate) is) (indent : Nat) {es rest : List Stroke} {p q : Page}
    (hpq : p.Alike P es q) (hbreak : AllowsBehind es) (hsteady : EndsSteady es)
    (hall : P.all = es ++ (itemsStrokes is ++ rest)) :
    Charted P es (itemsStrokes is) rest p (printClauseItems P.style indent predicate is p) q
      (printClauseItems P.style' indent predicate (recastItems P.recasting is) q) := by
  match is with
  | [] => exact .nil
  | ⟨nodes, comma⟩ :: is =>
    obtain ⟨hnodes, hcomma, his⟩ := his
    rw [itemsStrokes, List.append_assoc] at hall
    simp only [printClauseItems, recastItems, recastItems_isEmpty, P.indentWidth,
      ← fitsOnLine_recast hpq hall]
    have hcontinued := hpq.continueAt (indent + P.style.indentWidth)
    have hbare := charted_nodes nodes hnodes hcontinued (.inr hsteady) hall
    split
    · rename_i hsingle
      obtain rfl : is = [] := by
        rw [Bool.and_eq_true, List.isEmpty_iff] at hsingle
        exact hsingle.1
      simp only [itemsStrokes, List.append_nil] at hbare ⊢
      exact (Charted.continueAt _).then_ (hbare.append (charted_comma comma))
    · split
      · rename_i hpredicate
        obtain rfl : comma = false := by
          cases comma with
          | false => rfl
          | true => simp [hpredicate] at hcomma
        have hrest := charted_items is his indent (hbare.alike hcontinued hall) (.inr hcomma)
          (show P.all = _ ++ (_ ++ rest) by simpa [commaStrokes] using hall)
        exact (Charted.continueAt _).then_ (hbare.append hrest)
      · have hdeeper := hpq.continueAt (indent + P.style.indentWidth + P.style.indentWidth)
        have hfirst := charted_itemNodes nodes hnodes (indent + P.style.indentWidth) hdeeper
          (hbreak.between _) hall
        have halike := hfirst.alike hdeeper hall
        have hmarked := (charted_comma comma).alike halike
          (show P.all = _ ++ (_ ++ (itemsStrokes is ++ rest)) by simpa using hall)
        have hrest := charted_items is his (indent + P.style.indentWidth) hmarked
          (mayStart_next hcomma _) (by simpa using hall)
        exact (Charted.continueAt _).then_ (hfirst.append ((charted_comma comma).append hrest))

lemma charted_body (body : Body Node) {kind : ClauseKind} (hbody : BodySound kind body)
    (indent : Nat) (bare : Bool) {es rest : List Stroke} {p q : Page}
    (hpq : p.Alike P es q) (hbreak : AllowsBehind es) (hsteady : bare = false → EndsSteady es)
    (hall : P.all = es ++ (bodyStrokes body ++ rest)) :
    Charted P es (bodyStrokes body) rest p
      (printBody P.style indent kind.isPredicate bare body p) q
      (printBody P.style' indent kind.isPredicate bare (recastBody P.recasting body) q) := by
  match body with
  | .items is =>
    simp only [printBody, recastBody]
    cases bare with
    | true => exact charted_items is hbody indent hpq (.inl hbreak) hall
    | false => exact charted_clauseItems is hbody indent hpq hbreak (hsteady rfl) hall
  | .construction ⟨new, typeName, opening, arguments, closing⟩ =>
    obtain ⟨hnew, htype, hopening, hclosing, harguments⟩ := hbody
    have htypeMoves : ∀ t ∈ typeName, t.kind.movesUp = false := by
      intro t ht
      rcases htype t ht with hkind | hkind <;> simp [hkind, Kind.movesUp]
    have hnewMoves : ∀ t ∈ [new], t.kind.movesUp = false := by simp [hnew, Kind.movesUp]
    have hstrokes : bodyStrokes (.construction ⟨new, typeName, opening, arguments, closing⟩) =
        [.write new] ++ (typeName.map .write ++ ([.glue opening] ++
          (itemsStrokes arguments ++ [.glue closing]))) := by
      simp [bodyStrokes]
    rw [hstrokes] at hall ⊢
    have hstarted := (charted_tokens hnewMoves).alike hpq
      (show P.all = _ ++ (_ ++ (typeName.map .write ++ ([.glue opening] ++
        (itemsStrokes arguments ++ [.glue closing])) ++ rest)) by simpa using hall)
    have hnamed := (charted_tokens htypeMoves).alike hstarted
      (show P.all = _ ++ (_ ++ ([.glue opening] ++ (itemsStrokes arguments ++
        [.glue closing]) ++ rest)) by simpa using hall)
    have hopened := (Charted.put (.glue opening) nofun).alike hnamed
      (show P.all = _ ++ (_ ++ (itemsStrokes arguments ++ [.glue closing] ++ rest)) by
        simpa using hall)
    have hlength : (P.recasting new).text.length = new.text.length := by
      simpa [Text.asciiUpper] using congrArg List.length (P.recasting.letters_eq new)
    have hcolumn := hstarted.column
    simp only [printTokens, List.map_cons, List.map_nil, List.foldl_cons, List.foldl_nil]
      at hcolumn
    simp only [printBody, recastBody, recastItems_isEmpty, P.indentWidth, hlength, ← hcolumn]
    refine (charted_tokens hnewMoves).append ((charted_tokens htypeMoves).append
      ((Charted.put (.glue opening) nofun).append ?_))
    split
    · rename_i hempty
      obtain rfl := List.isEmpty_iff.1 hempty
      exact .put (.glue closing) nofun
    · have hinside := charted_items arguments harguments (indent + 2 * P.style.indentWidth) hopened
        (.inl (allowsBehind_concat (by simp [Stroke.allowsBehind, hopening])))
        (show P.all = _ ++ (_ ++ ([.glue closing] ++ rest)) by simpa using hall)
      exact hinside.append ((Charted.breakAt _ (allowsBetween_of_before
        (r := .glue closing) (by simp [Stroke.allowsBefore, hclosing]))).then_ (.put _ nofun))

lemma charted_clauses (cs : List (Clause Node)) {first : Bool} (hcs : ClausesSound first cs)
    (indent : Nat) {es rest : List Stroke} {p q : Page} (hpq : p.Alike P es q)
    (hbreak : first = true → AllowsBehind es)
    (hall : P.all = es ++ (clausesStrokes cs ++ rest)) :
    Charted P es (clausesStrokes cs) rest p (printClauses P.style indent cs p) q
      (printClauses P.style' indent (recastClauses P.recasting cs) q) := by
  match cs with
  | [] => exact .nil
  | ⟨kind, keywords, leading, body, trailing⟩ :: cs =>
    obtain ⟨hfirst, hkeywords, -, hbody, -, hcs⟩ := hcs
    rw [clausesStrokes, List.append_assoc] at hall
    have hbegun := (charted_leading indent leading).alike hpq hall
    -- the keywords start a line; without keywords the clause stands where a line may break anyway
    have hheaded := (charted_keywords keywords indent hkeywords).alike hbegun
      (show P.all = _ ++ (_ ++ (bodyStrokes body ++ (trailing.map .comment ++
        clausesStrokes cs) ++ rest)) by simpa using hall)
    have hbehind : AllowsBehind (es ++ leading.map .comment ++ keywords.map .write) := by
      by_cases hne : keywords = []
      · subst hne
        simpa using (hbreak (hfirst rfl)).comments leading
      · exact allowsBehind_keywords hne hkeywords _
    have hbody := charted_body body hbody indent keywords.isEmpty hheaded hbehind
      (fun hne => endsSteady_keywords (by simpa using hne) _)
      (show P.all = _ ++ (_ ++ (trailing.map .comment ++ clausesStrokes cs ++ rest)) by
        simpa using hall)
    have hwritten := hbody.alike hheaded (by simpa using hall)
    have hended := (charted_trailing indent trailing).alike hwritten
      (show P.all = _ ++ (_ ++ (clausesStrokes cs ++ rest)) by simpa using hall)
    have hrest := charted_clauses cs hcs indent hended (by simp) (by simpa using hall)
    have hempty : (keywords.map P.recasting).isEmpty = keywords.isEmpty := by simp
    simp only [printClauses, recastClauses, hempty]
    exact (charted_leading indent leading).append ((charted_keywords keywords indent
      hkeywords).append (hbody.append ((charted_trailing indent trailing).append hrest)))

lemma charted_statements (ss : List (Statement Node)) (hss : StatementsSound ss) (indent : Nat)
    (first : Bool) {es rest : List Stroke} {p q : Page} (hpq : p.Alike P es q)
    (hbreak : AllowsBehind es) (haside : first = false → EndsAside es)
    (hall : P.all = es ++ (statementsStrokes ss ++ rest)) :
    Charted P es (statementsStrokes ss) rest p (printStatements P.style indent first ss p) q
      (printStatements P.style' indent first (recastStatements P.recasting ss) q) := by
  match ss with
  | [] => exact .nil
  | ⟨clauses, terminated, trailing⟩ :: ss =>
    obtain ⟨hclauses, -, hlast, hss⟩ := hss
    rw [statementsStrokes, List.append_assoc] at hall
    simp only [printStatements, recastStatements]
    rw [isCommentOnly_recast clauses terminated trailing]
    have hfirst : (!first && !Statement.isCommentOnly ⟨clauses, terminated, trailing⟩) = true →
        first = false := by cases first <;> simp
    generalize (!first && !Statement.isCommentOnly ⟨clauses, terminated, trailing⟩) = apart at hfirst
    have hseparated : Charted P es [] (clausesStrokes clauses ++ (endStrokes terminated ++
        (trailing.map .comment ++ statementsStrokes ss)) ++ rest) p
        (if apart then p.separate else p) q (if apart then q.separate else q) := by
      cases apart with
      | false => exact .nil
      | true => exact .separate (haside (hfirst rfl))
    have hseparatedAlike := hseparated.alike hpq (by simpa using hall)
    rw [List.append_nil] at hseparatedAlike
    have hwritten := charted_clauses clauses hclauses indent hseparatedAlike (fun _ => hbreak) hall
    have hended := (charted_end terminated).alike (hwritten.alike hseparatedAlike hall)
      (show P.all = _ ++ (_ ++ (trailing.map .comment ++ statementsStrokes ss ++ rest)) by
        simpa using hall)
    have hcomments := (charted_comments trailing).alike hended
      (show P.all = _ ++ (_ ++ (statementsStrokes ss ++ rest)) by simpa using hall)
    refine hseparated.then_ (hwritten.append ((charted_end terminated).append
      ((charted_comments trailing).append ?_)))
    rcases hlast with rfl | rfl
    · have hended := endsAside_end (es ++ clausesStrokes clauses) trailing
      rw [← List.append_assoc] at hended
      exact charted_statements ss hss indent false hcomments hended.allowsBehind (fun _ => hended)
        (by simpa using hall)
    · exact .nil

end

end Recursion

/-! ## Scripts -/

/-- **A script is laid out by moves**, and its recasting by the same moves, recast.  The strokes of
the pair are those of the script, so all that was asked of the pair was asked of this script. -/
theorem Script.charted_layOut (P : Pair) {script : Script} (h : StatementsSound script)
    (hall : P.all = statementsStrokes script) :
    Charted P [] P.all [] .empty (Script.layOut P.style script) .empty
      (Script.layOut P.style' (recastStatements P.recasting script)) := by
  have hstatements : ∀ ss : Script, StatementsSound ss → statementsStrokes ss = P.all →
      Charted P [] P.all [] .empty (printStatements P.style 0 true ss .empty) .empty
        (printStatements P.style' 0 true (recastStatements P.recasting ss) .empty) := by
    intro ss hss hstrokes
    have hcharted := charted_statements ss hss 0 true (.empty P) (by simp [AllowsBehind]) nofun
      (show P.all = _ ++ (_ ++ []) by simp [hstrokes])
    rwa [hstrokes] at hcharted
  simp only [Script.layOut, P.oneJoinPerLine]
  split
  · exact hstatements script h hall.symm
  · obtain ⟨hsound, hstrokes⟩ := divide_mergeStatements script h
    rw [Script.mergeJoins, Script.mergeJoins, mergeStatements_recast]
    exact hstatements _ hsound (hstrokes.trans hall.symm)

end SqlInlay.Sql
