import SqlInlay.Proofs.Sql.Entries

/-!
# Segmenting loses nothing

Clauses, statements and groups only divide what they are made of.  Each lemma here says so of one
function: the entries of what it builds are the entries of what it was given, in the same order.
`segment_entries` puts them together: the entries of a script are those of its tokens.

**Order.**  There are two places in which something seems to move, and neither moves an entry.  The
comments at the end of a clause become those that lead the next one, which starts where they end
(`RawClause.entries_closed_append_next`); and the comments behind a semicolon go to the statement
that it ends (`entries_statementsFrom`).  Reading a script from left to right meets them in their
old places.

**Depth.**  A group is folded when its parenthesis closes, and by then everything inside it has been
folded already.  `pendingEntries` lists what has been read so far, the groups that are still open
included, and each step of nesting keeps it, so no induction over the depth of groups is needed
(`entries_nestFrom`).

**Where properness is needed.**  A comma that becomes a flag has to read like one, and the operands
of a group have to carry no flag.  Both hold of proper entries, and the entries of tokens that a
lexer made are proper (`entriesOf_proper`), so properness goes along with every step.
-/

namespace SqlInlay.Sql

/-! ## Clauses

A clause is started, filled and closed node by node.  Its entries at any time are its comments, its
keywords and its nodes, in the order in which they were read.
-/

namespace RawClause

/-- The entries of a clause whose nodes are not yet divided. -/
def entries (c : RawClause) : List Entry :=
  c.leading.map .ofComment ++ c.keywords.map (.ofToken .plain) ++ nodesEntries c.nodes

@[simp] lemma entries_push (c : RawClause) (n : Node) :
    (c.push n).entries = c.entries ++ n.entries := by
  simp [push, entries, nodesEntries]

lemma entries_eq_nil_of_isEmpty {c : RawClause} (h : c.isEmpty = true) : c.entries = [] := by
  simp only [isEmpty, Bool.and_eq_true, List.isEmpty_iff] at h
  simp [entries, h, nodesEntries]

/-- Leaving out a clause that is empty leaves out no entry. -/
lemma entries_toList (c : RawClause) : c.toList.flatMap entries = c.entries := by
  unfold toList
  split
  · simp [entries_eq_nil_of_isEmpty ‹_›]
  · simp

/-- The comments that a clause gives up are those that lead the next one. -/
lemma entries_closed_append_next (c : RawClause) (kind : ClauseKind) (keywords : List Token) :
    c.closed.entries ++ (c.next kind keywords).entries =
      c.entries ++ keywords.map (.ofToken .plain) := by
  conv_rhs => rw [entries, ← withoutTrailing_append c.nodes]
  simp [closed, next, entries, nodesEntries]

end RawClause

/-- Starting a clause keeps every entry in its place, if going on from there does. -/
lemma entries_start (c : RawClause) (kind : ClauseKind) (keywords : List Token)
    {clauses : List RawClause} {rest : List Node}
    (h : clauses.flatMap RawClause.entries =
      (c.next kind keywords).entries ++ nodesEntries rest) :
    (c.closed.toList ++ clauses).flatMap RawClause.entries =
      c.entries ++ (keywords.map (.ofToken .plain) ++ nodesEntries rest) := by
  rw [List.flatMap_append, RawClause.entries_toList, h, ← List.append_assoc,
    RawClause.entries_closed_append_next, List.append_assoc]

/-- Dividing nodes at clause keywords keeps every entry in its place.  The induction is over the
nodes, for any clause at hand. -/
lemma entries_clausesFrom (current : RawClause) (before : Option Token) (begun : Bool)
    (nodes : List Node) :
    (clausesFrom current before begun nodes).flatMap RawClause.entries =
      current.entries ++ nodesEntries nodes := by
  fun_induction clausesFrom current before begun nodes with
  | case1 => simp [RawClause.entries_toList, nodesEntries]
  | case2 current before begun t kind u rest hhead ih =>
    rw [entries_start current kind [t, u] ih]
    simp [nodesEntries, Node.entries]
  | case3 current before begun t kind rest hnot hhead ih =>
    rw [entries_start current kind [t] ih]
    simp [nodesEntries, Node.entries]
  | case4 current before begun t ns kind hhead ih =>
    rw [entries_start current kind [t] ih]
    simp [nodesEntries, Node.entries]
  | case5 current before begun t ns hhead ih => simp [ih, nodesEntries, Node.entries]
  | case6 current before begun c ns ih => simp [ih, nodesEntries, Node.entries]
  | case7 current before begun n ns _ _ ih => simp [ih, nodesEntries]

/-- The tokens of a dotted name are its nodes. -/
lemma entries_of_dottedName? {nodes : List Node} {name : List Token}
    (h : dottedName? nodes = some name) :
    nodesEntries nodes = name.map (.ofToken .plain) := by
  fun_induction dottedName? nodes generalizing name with
  | case1 t ht =>
    obtain rfl : [t] = name := by simpa using h
    simp [nodesEntries, Node.entries]
  | case2 t ht => simp at h
  | case3 t d ns hkinds ih =>
    obtain ⟨rest, hrest, rfl⟩ := Option.map_eq_some_iff.1 h
    simp [nodesEntries, Node.entries, ih hrest]
  | case4 t d ns hkinds => simp at h
  | case5 => simp at h

/-- A construction holds what its nodes hold.  It is recognized as a keyword, a dotted name and one
group at the end, and the operands of this group are divided again at their commas. -/
lemma entries_of_construction? {nodes : List Node} {c : Construction Node}
    (hp : ∀ e ∈ nodesEntries nodes, e.Proper) (h : construction? nodes = some c)
    (kind : ClauseKind) : bodyEntries kind (.construction c) = nodesEntries nodes := by
  unfold construction? at h
  split at h
  · rename_i new rest
    split at h
    · rename_i opening operands closing name hlast hname
      split at h
      · obtain rfl := Option.some.inj h
        have hrest : rest = rest.dropLast ++ [.list opening operands closing] := by
          have hne : rest ≠ [] := by rintro rfl; simp at hlast
          have hget := List.dropLast_append_getLast hne
          rw [List.getLast?_eq_some_getLast hne, Option.some.injEq] at hlast
          rw [hlast] at hget
          exact hget.symm
        rw [hrest] at hp ⊢
        simp only [nodesEntries, nodesEntries_append, Node.entries] at hp
        have hoperands : ∀ e ∈ itemsEntries .stray operands, e.Proper := by
          intro e he
          exact hp e (by simp [he])
        have hcontents := entries_contentsOf hoperands
        have hsplit := entries_splitCommas fun e he => hoperands e (hcontents ▸ he)
        rw [hrest] at hname
        simp only [List.dropLast_concat] at hname
        simp only [bodyEntries, nodesEntries, nodesEntries_append, Node.entries, hsplit,
          hcontents, entries_of_dottedName? hname]
        simp
      · simp at h
    · simp at h
  · simp at h

/-- Dividing a clause into items keeps every entry in its place. -/
lemma entries_finish (dialect : Dialect) {c : RawClause}
    (h : ∀ e ∈ c.entries, e.Proper) :
    clausesEntries [c.finish dialect] = c.entries := by
  have hnodes : ∀ e ∈ nodesEntries (withoutTrailing c.nodes), e.Proper := by
    intro e he
    refine h e (List.mem_append_right _ ?_)
    rw [← withoutTrailing_append c.nodes, nodesEntries_append]
    exact List.mem_append_left _ he
  have hbody : bodyEntries c.kind (c.finish dialect).body =
      nodesEntries (withoutTrailing c.nodes) := by
    simp only [RawClause.finish]
    split
    · rename_i construction hc
      split at hc
      · exact entries_of_construction? hnodes hc _
      · simp at hc
    · exact entries_splitItems c.kind hnodes
  conv_rhs => rw [RawClause.entries, ← withoutTrailing_append c.nodes]
  simp only [RawClause.finish] at hbody
  simp [clausesEntries, RawClause.finish, hbody]

/-! ## Statements

Statements are divided at semicolons, and a semicolon becomes the flag of the statement that it
ends.  Behind the last semicolon there may be no statement any more, only comments.
-/

lemma entries_finishAll (dialect : Dialect) {clauses : List RawClause}
    (h : ∀ e ∈ clauses.flatMap RawClause.entries, e.Proper) :
    clausesEntries (clauses.map (·.finish dialect)) = clauses.flatMap RawClause.entries := by
  induction clauses with
  | nil => simp [clausesEntries]
  | cons c cs ih =>
    simp only [List.flatMap_cons, List.mem_append] at h
    rw [List.map_cons, ← List.singleton_append, clausesEntries_append,
      entries_finish dialect fun e he => h e (.inl he), ih fun e he => h e (.inr he),
      List.flatMap_cons]

/-- A statement holds its nodes, its flag and its comments. -/
lemma entries_statementOf (dialect : Dialect) {nodes : List Node}
    (h : ∀ e ∈ nodesEntries nodes, e.Proper) (terminated : Bool) (trailing : List Comment) :
    statementsEntries [statementOf dialect nodes terminated trailing] =
      nodesEntries nodes ++ endEntries terminated ++ trailing.map .ofComment := by
  have hclauses := entries_clausesFrom .preamble none false nodes
  have hpreamble : RawClause.preamble.entries = [] := rfl
  rw [hpreamble, List.nil_append] at hclauses
  simp only [statementOf, statementsEntries]
  rw [entries_finishAll dialect fun e he => h e (hclauses ▸ he), hclauses]
  simp

/-- A proper semicolon is the flag that stands for it. -/
lemma entries_of_isKind_semicolon {n : Node} (hn : ∀ e ∈ n.entries, e.Proper)
    (h : n.isKind .semicolon = true) : n.entries = [.semicolon] := by
  cases n with
  | token t =>
    have ht : t.kind = .semicolon := by simpa [Node.isKind, Node.token?] using h
    have hp := hn _ (List.mem_singleton_self _)
    simp only [Entry.Proper, Entry.ofToken] at hp
    simp [Node.entries, Entry.ofToken, Entry.semicolon, ht, hp.2.2 ht]
  | comment c => simp [Node.isKind, Node.token?] at h
  | query o s c => simp [Node.isKind, Node.token?] at h
  | list o is c => simp [Node.isKind, Node.token?] at h

lemma statementsEntries_cons (s : Statement Node) (ss : List (Statement Node)) :
    statementsEntries (s :: ss) = statementsEntries [s] ++ statementsEntries ss := by
  simp [statementsEntries]

lemma entries_inlineComments (nodes : List Node) :
    (commentsOf (nodes.takeWhile isInlineComment)).map .ofComment =
      nodesEntries (nodes.takeWhile isInlineComment) := by
  refine entries_commentsOf fun n hn => ?_
  have hinline := List.mem_takeWhile_imp hn
  simp only [isInlineComment, Bool.and_eq_true] at hinline
  exact hinline.1

/-- Dividing nodes at semicolons keeps every entry in its place.  The semicolon becomes the end of
its statement, and the comments behind it on its line stand behind this end. -/
lemma entries_statementsFrom (dialect : Dialect) (current nodes : List Node)
    (h : ∀ e ∈ nodesEntries current ++ nodesEntries nodes, e.Proper) :
    statementsEntries (statementsFrom dialect current nodes) =
      nodesEntries current ++ nodesEntries nodes := by
  fun_induction statementsFrom dialect current nodes with
  | case1 current hempty =>
    rw [List.isEmpty_iff] at hempty
    simp [hempty, statementsEntries, nodesEntries]
  | case2 current hne =>
    rw [entries_statementOf dialect fun e he => h e (List.mem_append_left _ he)]
    simp [endEntries, nodesEntries]
  | case3 current n ns hsemicolon ih =>
    simp only [nodesEntries, List.mem_append] at h ih ⊢
    have hns : nodesEntries (ns.takeWhile isInlineComment) ++
        nodesEntries (ns.dropWhile isInlineComment) = nodesEntries ns := by
      rw [← nodesEntries_append, List.takeWhile_append_dropWhile]
    have hrest : ∀ e ∈ nodesEntries (ns.dropWhile isInlineComment), e.Proper := fun e he =>
      h e (.inr (.inr (hns ▸ List.mem_append_right _ he)))
    rw [statementsEntries_cons, entries_statementOf dialect fun e he => h e (.inl he),
      ih fun e he => hrest e (he.resolve_left (by simp)),
      entries_of_isKind_semicolon (fun e he => h e (.inr (.inl he))) hsemicolon,
      entries_inlineComments, ← hns]
    simp [endEntries]
  | case4 current n ns hsemicolon ih =>
    rw [ih (by simpa [nodesEntries] using h)]
    simp [nodesEntries]

/-- Every statement holds something: nodes, or the semicolon that ends it. -/
lemma entries_ne_nil_of_mem_statementsFrom (dialect : Dialect) (current nodes : List Node)
    (h : ∀ e ∈ nodesEntries current ++ nodesEntries nodes, e.Proper) :
    ∀ s ∈ statementsFrom dialect current nodes, statementsEntries [s] ≠ [] := by
  fun_induction statementsFrom dialect current nodes with
  | case1 => simp
  | case2 current hne =>
    intro s hs
    obtain rfl := List.mem_singleton.1 hs
    rw [entries_statementOf dialect fun e he => h e (List.mem_append_left _ he)]
    simp only [List.isEmpty_iff] at hne
    simp [nodesEntries_eq_nil, hne]
  | case3 current n ns hsemicolon ih =>
    simp only [nodesEntries, List.mem_append] at h ih
    intro s hs
    rcases List.mem_cons.1 hs with rfl | hs
    · rw [entries_statementOf dialect fun e he => h e (.inl he)]
      simp [endEntries]
    · refine ih (fun e he => h e (.inr (.inr ?_))) s hs
      rw [← List.takeWhile_append_dropWhile (p := isInlineComment) (l := ns), nodesEntries_append]
      exact List.mem_append_right _ (he.resolve_left (by simp))
  | case4 current n ns hsemicolon ih => exact ih (by simpa [nodesEntries] using h)

/-- A script holds what its nodes hold. -/
lemma entries_statementsOf (dialect : Dialect) {nodes : List Node}
    (h : ∀ e ∈ nodesEntries nodes, e.Proper) :
    statementsEntries (statementsOf dialect nodes) = nodesEntries nodes := by
  rw [statementsOf, entries_statementsFrom dialect [] nodes (by simpa [nodesEntries] using h)]
  simp [nodesEntries]

/-! ## Groups

A token takes a role from its kind, and a comment one from where it stands on its line as well.
Folding must not change roles: a parenthesis stays an opening one or a closing one in a group, too.
-/

/-- A group holds its parentheses and what is between them. -/
lemma entries_groupOf (dialect : Dialect) (opening closing : Token) {nodes : List Node}
    (h : ∀ e ∈ nodesEntries nodes, e.Proper) :
    (groupOf dialect opening nodes closing).entries =
      .ofToken .opening opening :: (nodesEntries nodes ++ [.ofToken .closing closing]) := by
  unfold groupOf
  split
  · rw [Node.entries, entries_statementsOf dialect h]
  · rw [Node.entries, entries_splitPredicate]

/-- The role of a token that stands behind the start of a line, or not. -/
def roleOf (fresh : Bool) : Kind → Role
  | .openParen => .opening
  | .closeParen => .closing
  | .lineComment | .blockComment => .comment fresh
  | _ => .plain

/-- The entries of some tokens; `fresh` says that nothing has been read on the current line. -/
def entriesOf (fresh : Bool) : List Token → List Entry
  | [] => []
  | t :: ts =>
    if t.kind = .blank then entriesOf (fresh || '\n' ∈ t.text) ts
    else .ofToken (roleOf fresh t.kind) t :: entriesOf false ts

/-- The entries of what has been read in front of some tokens: for each group that is open, what
stands in front of its parenthesis, the parenthesis, and what stands behind it so far. -/
def pendingEntries (done : List Node) : List Frame → List Entry
  | [] => nodesEntries done.reverse
  | ⟨opening, outer⟩ :: frames =>
    pendingEntries outer frames ++ .ofToken .opening opening :: nodesEntries done.reverse

lemma pendingEntries_cons (n : Node) (done : List Node) (frames : List Frame) :
    pendingEntries (n :: done) frames = pendingEntries done frames ++ n.entries := by
  cases frames <;> simp [pendingEntries, nodesEntries]

lemma mem_pendingEntries {done : List Node} {frames : List Frame} {e : Entry}
    (h : e ∈ nodesEntries done.reverse) : e ∈ pendingEntries done frames := by
  cases frames with
  | nil => exact h
  | cons frame frames => exact List.mem_append_right _ (List.mem_cons_of_mem _ h)

/-- Folding groups keeps every entry in its place.  The invariant of the fold is what is pending:
the nodes of all open groups from the outermost on, each with its opening parenthesis in front.  A
closing parenthesis makes a node of the innermost one, which has the same entries. -/
lemma entries_nestFrom {dialect : Dialect} {fresh : Bool} {done nodes : List Node}
    {frames : List Frame} {tokens : List Token}
    (h : nestFrom dialect fresh done frames tokens = .ok nodes)
    (hp : ∀ e ∈ pendingEntries done frames ++ entriesOf fresh tokens, e.Proper) :
    nodesEntries nodes = pendingEntries done frames ++ entriesOf fresh tokens := by
  fun_induction nestFrom dialect fresh done frames tokens with
  | case1 fresh done =>
    obtain rfl : done.reverse = nodes := by simpa using h
    simp [pendingEntries, entriesOf]
  | case2 => simp at h
  | case3 fresh done frames t ts hkind ih =>
    simp only [entriesOf, hkind, if_true] at hp ⊢
    exact ih h hp
  | case4 fresh done frames t ts hkind ih =>
    simp only [entriesOf, hkind, reduceCtorEq, if_false, roleOf] at hp ⊢
    rw [ih h]
    · simp [pendingEntries, nodesEntries]
    · simpa [pendingEntries, nodesEntries] using hp
  | case5 => simp at h
  | case6 fresh done t ts hkind frame outer group ih =>
    simp only [entriesOf, hkind, reduceCtorEq, if_false, roleOf] at hp ⊢
    have hgroup : group.entries = .ofToken .opening frame.opening ::
        (nodesEntries done.reverse ++ [.ofToken .closing t]) :=
      entries_groupOf dialect _ _ fun e he =>
        hp e (List.mem_append_left _ (mem_pendingEntries he))
    have hpending : pendingEntries (group :: frame.outer) outer ++ entriesOf false ts =
        pendingEntries done (frame :: outer) ++ .ofToken .closing t :: entriesOf false ts := by
      simp [pendingEntries_cons, pendingEntries, hgroup]
    rw [ih h (hpending ▸ hp), hpending]
  | case7 fresh done frames t ts hkind ih =>
    simp only [entriesOf, hkind, reduceCtorEq, if_false, roleOf] at hp ⊢
    have hpending : pendingEntries (.comment ⟨t, fresh⟩ :: done) frames ++ entriesOf false ts =
        pendingEntries done frames ++ .ofToken (.comment fresh) t :: entriesOf false ts := by
      simp [pendingEntries_cons, Node.entries, Entry.ofComment]
    rw [ih h (hpending ▸ hp), hpending]
  | case8 fresh done frames t ts hkind ih =>
    simp only [entriesOf, hkind, reduceCtorEq, if_false, roleOf] at hp ⊢
    have hpending : pendingEntries (.comment ⟨t, fresh⟩ :: done) frames ++ entriesOf false ts =
        pendingEntries done frames ++ .ofToken (.comment fresh) t :: entriesOf false ts := by
      simp [pendingEntries_cons, Node.entries, Entry.ofComment]
    rw [ih h (hpending ▸ hp), hpending]
  | case9 fresh done frames t ts h₁ h₂ h₃ h₄ h₅ ih =>
    have hrole : roleOf fresh t.kind = .plain := by
      unfold roleOf
      split <;> simp_all
    simp only [entriesOf, hrole] at hp ⊢
    rw [if_neg h₁] at hp ⊢
    have hpending : pendingEntries (.token t :: done) frames ++ entriesOf false ts =
        pendingEntries done frames ++ .ofToken .plain t :: entriesOf false ts := by
      simp [pendingEntries_cons, Node.entries]
    rw [ih h (hpending ▸ hp), hpending]

/-! ## Scripts

What the lexer makes is all that is used of a query here: marks that read as they should.
-/

/-- The entries of tokens whose commas and semicolons read as such are proper. -/
lemma entriesOf_proper {tokens : List Token}
    (hcomma : ∀ t ∈ tokens, t.kind = .comma → t.text = ",".toList)
    (hsemicolon : ∀ t ∈ tokens, t.kind = .semicolon → t.text = ";".toList) (fresh : Bool) :
    ∀ e ∈ entriesOf fresh tokens, e.Proper := by
  induction tokens generalizing fresh with
  | nil => simp [entriesOf]
  | cons t ts ih =>
    have hrest := fun fresh => ih (fun u hu => hcomma u (List.mem_cons_of_mem _ hu))
      (fun u hu => hsemicolon u (List.mem_cons_of_mem _ hu)) fresh
    intro e he
    simp only [entriesOf] at he
    split at he
    · exact hrest _ e he
    · rename_i hblank
      rcases List.mem_cons.1 he with rfl | he
      · have h₁ := hcomma t (List.mem_cons_self ..)
        have h₂ := hsemicolon t (List.mem_cons_self ..)
        simp only [Entry.Proper, Entry.ofToken, roleOf]
        cases hk : t.kind <;> simp_all
      · exact hrest _ e he

/-- The nodes of a script, with the entries of its tokens. -/
lemma exists_nodes_of_segment {dialect : Dialect} {tokens : List Token} {script : Script}
    (h : segment dialect tokens = .ok script) (hp : ∀ e ∈ entriesOf true tokens, e.Proper) :
    ∃ nodes, statementsOf dialect nodes = script ∧ nodesEntries nodes = entriesOf true tokens := by
  unfold segment at h
  cases hnest : nestFrom dialect true [] [] tokens with
  | error f => simp [hnest, Except.map] at h
  | ok nodes =>
    refine ⟨nodes, by simpa [hnest, Except.map] using h, ?_⟩
    have hnodes := entries_nestFrom hnest (by simpa [pendingEntries, nodesEntries] using hp)
    simpa [pendingEntries, nodesEntries] using hnodes

/-- **Segmenting loses nothing.**  The entries of a script are those of its tokens, in order.
Properness is asked of the tokens and needs no proof for those that a lexer made. -/
theorem segment_entries {dialect : Dialect} {tokens : List Token} {script : Script}
    (h : segment dialect tokens = .ok script)
    (hp : ∀ e ∈ entriesOf true tokens, e.Proper) :
    statementsEntries script = entriesOf true tokens := by
  obtain ⟨nodes, rfl, hnodes⟩ := exists_nodes_of_segment h hp
  rw [entries_statementsOf dialect (by rwa [hnodes]), hnodes]

/-- No statement of a script is empty. -/
lemma entries_ne_nil_of_segment {dialect : Dialect} {tokens : List Token} {script : Script}
    (h : segment dialect tokens = .ok script) (hp : ∀ e ∈ entriesOf true tokens, e.Proper) :
    ∀ s ∈ script, statementsEntries [s] ≠ [] := by
  obtain ⟨nodes, rfl, hnodes⟩ := exists_nodes_of_segment h hp
  exact entries_ne_nil_of_mem_statementsFrom dialect [] nodes
    (by simpa [nodesEntries, hnodes] using hp)

/-- The first thing on the first line is no comment in the middle of a line.  Nothing has been read
there, so a comment at the start of a query stands on a line of its own. -/
lemma role_of_mem_head?_entriesOf {tokens : List Token} {e : Entry}
    (h : e ∈ (entriesOf true tokens).head?) : e.role ≠ .comment false := by
  induction tokens with
  | nil => simp [entriesOf] at h
  | cons t ts ih =>
    simp only [entriesOf] at h
    split at h
    · exact ih (by simpa using h)
    · obtain rfl : Entry.ofToken (roleOf true t.kind) t = e := by simpa using h
      simp only [Entry.ofToken, roleOf]
      split <;> simp

end SqlInlay.Sql
