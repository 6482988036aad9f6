import SqlInlay.Proofs.Sql.Divisions

/-!
# A script flattened is its tokens

`statementsStrokes` flattens a script: comments, keywords, items and their commas, groups between
their parentheses, statements and their semicolons, from left to right and at any depth.  For any
tokens whatever that segmentation accepts, lexed from a text or not, the strokes stand for the
tokens one by one, blanks left out (`segment_flattens`).  Nothing is dropped, doubled or moved,
whatever clauses the tokens were sorted into.

**Flags.**  A comma or a semicolon that became a flag is known by its kind alone, whatever its token
read; any other stroke is its token, offset included.  So `Becomes` lets a token turn into a mark of
its kind, which `Settles` does only if the token reads like the mark.  Without that condition
nothing has to be known of the tokens, and no soundness goes along.

**Step by step.**  `Flattens` relates the strokes before a step of segmentation to those behind it,
place by place, and can be chained.  There is a lemma for each step: items out of nodes
(`flattens_itemsFrom`), clauses (`flattens_finish`), statements (`flattens_statementsFrom`) and
groups (`flattens_nestLeaves`).  The leaves stand for the tokens to begin with
(`standFor_leavesOf`), and what strokes become stands for the same tokens (`Flattens.standFor`).
-/

namespace SqlInlay.Sql

/-- A stroke stands for a token: it is the token, or the flag that the token became. -/
def Stroke.StandsFor : Stroke → Token → Prop
  | .write u, t => u = t
  | .glue u, t => u = t
  | .mark kind _, t => t.kind = kind
  | .comment c, t => c.token = t

/-- A stroke becomes another one: a token may turn into a flag of its kind, and a parenthesis may
come to be written without a space. -/
inductive Becomes : Stroke → Stroke → Prop
  | refl (s : Stroke) : Becomes s s
  | mark (t : Token) (text : Text) : Becomes (.write t) (.mark t.kind text)
  | glue (t : Token) : Becomes (.write t) (.glue t)

lemma Becomes.trans {r s t : Stroke} (h : Becomes r s) (k : Becomes s t) : Becomes r t := by
  cases h with
  | refl => exact k
  | mark u text =>
    cases k
    exact .mark u text
  | glue u =>
    cases k
    exact .glue u

lemma Becomes.standsFor {s r : Stroke} {t : Token} (h : Becomes s r) (hs : s.StandsFor t) :
    r.StandsFor t := by
  cases h with
  | refl => exact hs
  | mark u text =>
    obtain rfl : u = t := hs
    exact rfl
  | glue u => exact hs

/-- Strokes become others, place by place; in particular there are as many. -/
def Flattens (ss rs : List Stroke) : Prop := List.Forall₂ Becomes ss rs

namespace Flattens

variable {ss rs ts ss' rs' : List Stroke} {s r : Stroke}

@[refl] lemma refl (ss : List Stroke) : Flattens ss ss := List.forall₂_same.2 fun s _ => .refl s

lemma of_eq (h : ss = rs) : Flattens ss rs := h ▸ .refl ss

lemma cons (h : Becomes s r) (hs : Flattens ss rs) : Flattens (s :: ss) (r :: rs) :=
  List.Forall₂.cons h hs

lemma append (h : Flattens ss rs) (h' : Flattens ss' rs') : Flattens (ss ++ ss') (rs ++ rs') :=
  List.rel_append h h'

lemma trans (h : Flattens ss rs) (k : Flattens rs ts) : Flattens ss ts := by
  induction h generalizing ts with
  | nil => exact k
  | cons h _ ih =>
    cases k with
    | cons k ks => exact .cons (h.trans k) (ih ks)

/-- What strokes become stands for the same tokens. -/
lemma standFor {tokens : List Token} (h : Flattens ss rs)
    (hs : List.Forall₂ Stroke.StandsFor ss tokens) : List.Forall₂ Stroke.StandsFor rs tokens := by
  induction h generalizing tokens with
  | nil => exact hs
  | cons h _ ih =>
    cases hs with
    | cons ht hts => exact .cons (h.standsFor ht) (ih hts)

end Flattens

/-! ## Items

What a cut may do is what it may do for soundness, so the three ways of dividing a body are dealt
with at once.
-/

/-- A node of a kind becomes the flag of the kind. -/
lemma flattens_mark {n : Node} {kind : Kind} (h : n.isKind kind = true) (text : Text) :
    Flattens n.strokes [.mark kind text] := by
  cases n with
  | token t =>
    obtain rfl : t.kind = kind := by simpa [Node.isKind, Node.token?] using h
    exact .cons (.mark t text) .nil
  | comment c => simp [Node.isKind, Node.token?] at h
  | query o s c => simp [Node.isKind, Node.token?] at h
  | list o is c => simp [Node.isKind, Node.token?] at h

/-- Carrying sound cuts out keeps every stroke in its place. -/
lemma flattens_itemsFrom {commas : Bool} {cuts : List (Cut × Node)} (hc : CutsSound commas cuts)
    (current : List Node) :
    Flattens (nodesStrokes current ++ nodesStrokes (cuts.map Prod.snd))
      (itemsStrokes (itemsFrom current cuts)) := by
  induction cuts generalizing current with
  | nil => exact .of_eq (by simp [itemsFrom, nodesStrokes])
  | cons cut cuts ih =>
    have hrest : CutsSound commas cuts :=
      ⟨fun n hn => hc.comma n (List.mem_cons_of_mem _ hn),
        fun n hn => hc.before n (List.mem_cons_of_mem _ hn)⟩
    obtain ⟨cut, n⟩ := cut
    cases cut with
    | comma =>
      obtain ⟨-, hcomma⟩ := hc.comma n (List.mem_cons_self ..)
      exact (Flattens.refl _).append ((flattens_mark hcomma ",").append (ih hrest []))
    | before =>
      have hall := (Flattens.refl (nodesStrokes (withoutTrailing current))).append
        (ih hrest (trailingComments current ++ [n]))
      rw [← nodesStrokes_withoutTrailing current]
      simpa [itemsFrom, nodesStrokes] using hall
    | inside => simpa [itemsFrom, nodesStrokes] using ih hrest (current ++ [n])

/-- Where no comma is cut, the items have no flags to put down.  So their strokes are those of the
nodes that they were cut from; comments that a cut moves to the next item are put down between the
two either way. -/
lemma contentsStrokes_itemsFrom {cuts : List (Cut × Node)} (hc : CutsSound false cuts)
    (current : List Node) :
    contentsStrokes (itemsFrom current cuts) =
      nodesStrokes current ++ nodesStrokes (cuts.map Prod.snd) := by
  have happend : ∀ is js : List (Item Node),
      contentsStrokes (is ++ js) = contentsStrokes is ++ contentsStrokes js := by
    intro is js
    induction is with
    | nil => rfl
    | cons i is ih => simp [contentsStrokes, ih]
  have hopen : ∀ nodes, contentsStrokes (openItem nodes) = nodesStrokes nodes := by
    intro nodes
    cases nodes <;> simp [openItem, contentsStrokes, nodesStrokes]
  induction cuts generalizing current with
  | nil => simp [itemsFrom, hopen, nodesStrokes]
  | cons cut cuts ih =>
    have hrest : CutsSound false cuts :=
      ⟨fun n hn => hc.comma n (List.mem_cons_of_mem _ hn),
        fun n hn => hc.before n (List.mem_cons_of_mem _ hn)⟩
    obtain ⟨cut, n⟩ := cut
    cases cut with
    | comma => exact absurd (hc.comma n (List.mem_cons_self ..)).1 (by simp)
    | before =>
      rw [← nodesStrokes_withoutTrailing current]
      simp [itemsFrom, happend, hopen, ih hrest, nodesStrokes]
    | inside => simp [itemsFrom, ih hrest, nodesStrokes]

lemma flattens_splitCommas (nodes : List Node) :
    Flattens (nodesStrokes nodes) (itemsStrokes (splitCommas nodes)) := by
  have hall := flattens_itemsFrom (cutsSound_commaCuts nodes) []
  rwa [map_snd_commaCuts] at hall

lemma flattens_splitPredicate (nodes : List Node) :
    Flattens (nodesStrokes nodes) (itemsStrokes (splitPredicate nodes)) := by
  have hall := flattens_itemsFrom (cutsSound_predicateCuts false ⟨0, false, false⟩ nodes) []
  rwa [map_snd_predicateCuts] at hall

lemma flattens_splitItems (kind : ClauseKind) (nodes : List Node) :
    Flattens (nodesStrokes nodes) (itemsStrokes (splitItems kind nodes)) := by
  unfold splitItems
  split
  · exact flattens_splitCommas nodes
  · split
    · exact flattens_splitPredicate nodes
    · split
      · have hall := flattens_itemsFrom (cutsSound_fromCuts none nodes) []
        rwa [map_snd_fromCuts] at hall
      · exact .of_eq (itemsStrokes_openItem nodes).symm

/-- Operands put together have the strokes of the operands, flags left out. -/
lemma nodesStrokes_contentsOf (operands : List (Item Node)) :
    nodesStrokes (contentsOf operands) = contentsStrokes operands := by
  induction operands with
  | nil => rfl
  | cons i is ih =>
    rw [contentsOf] at ih
    simp [contentsOf, ih, contentsStrokes]

/-! ## Clauses and statements

A construction is the one body that is not made of items.  Its parentheses come to be written
without a space, which `Becomes.glue` allows.
-/

lemma flattens_construction? {nodes : List Node} {c : Construction Node}
    (h : construction? nodes = some c) :
    Flattens (nodesStrokes nodes) (bodyStrokes (.construction c)) := by
  obtain ⟨name, operands, rfl, -, hname, harguments⟩ := exists_of_construction? h
  obtain ⟨new, typeName, opening, arguments, closing⟩ := c
  simp only at harguments
  subst harguments
  have harguments := flattens_splitCommas (contentsOf operands)
  rw [nodesStrokes_contentsOf] at harguments
  have hgroup : Flattens (.write opening :: (contentsStrokes operands ++ [.write closing]))
      (.glue opening :: (itemsStrokes (splitCommas (contentsOf operands)) ++ [.glue closing])) :=
    .cons (.glue _) (harguments.append (.cons (.glue _) .nil))
  have hall := (Flattens.refl ((new :: typeName).map .write)).append hgroup
  simpa [nodesStrokes, Node.strokes, bodyStrokes, (strokes_of_dottedName? hname).1] using hall

lemma flattens_finish (dialect : Dialect) (c : RawClause) :
    Flattens c.strokes (clausesStrokes [c.finish dialect]) := by
  have hbody : Flattens (nodesStrokes (withoutTrailing c.nodes))
      (bodyStrokes (c.finish dialect).body) := by
    simp only [RawClause.finish]
    split
    · rename_i construction hc
      split at hc
      · exact flattens_construction? hc
      · cases hc
    · exact flattens_splitItems c.kind _
  rw [RawClause.strokes, ← nodesStrokes_withoutTrailing c.nodes, ← strokes_trailingComments]
  have hclause := (Flattens.refl (c.leading.map .comment)).append ((Flattens.refl
    (c.keywords.map .write)).append (hbody.append (.refl
    ((commentsOf (trailingComments c.nodes)).map .comment))))
  simpa [clausesStrokes, RawClause.finish] using hclause

lemma flattens_finishAll (dialect : Dialect) (clauses : List RawClause) :
    Flattens (clauses.flatMap RawClause.strokes)
      (clausesStrokes (clauses.map (·.finish dialect))) := by
  induction clauses with
  | nil => exact .nil
  | cons c cs ih =>
    rw [List.flatMap_cons, List.map_cons, ← List.singleton_append, clausesStrokes_append]
    exact (flattens_finish dialect c).append ih

lemma flattens_statementOf (dialect : Dialect) (nodes : List Node) (terminated : Bool)
    (trailing : List Comment) :
    Flattens (nodesStrokes nodes)
      (clausesStrokes (statementOf dialect nodes terminated trailing).clauses) := by
  have hall := flattens_finishAll dialect (clausesFrom .preamble none false nodes)
  have hstrokes := strokes_clausesFrom .preamble none false nodes
  have hpreamble : RawClause.preamble.strokes = [] := rfl
  rw [hpreamble, List.nil_append] at hstrokes
  rwa [hstrokes] at hall

/-- Dividing nodes at semicolons keeps every stroke in its place. -/
lemma flattens_statementsFrom (dialect : Dialect) (current nodes : List Node) :
    Flattens (nodesStrokes current ++ nodesStrokes nodes)
      (statementsStrokes (statementsFrom dialect current nodes)) := by
  fun_induction statementsFrom dialect current nodes with
  | case1 current hempty =>
    rw [List.isEmpty_iff] at hempty
    subst hempty
    exact .nil
  | case2 current hne =>
    simpa [statementsStrokes, endStrokes, statementOf, nodesStrokes] using
      flattens_statementOf dialect current false []
  | case3 current n ns hsemicolon ih =>
    have hsplit : nodesStrokes ns = nodesStrokes (ns.takeWhile isInlineComment) ++
        nodesStrokes (ns.dropWhile isInlineComment) := by
      rw [← nodesStrokes_append, List.takeWhile_append_dropWhile]
    have hall := (flattens_statementOf dialect current true
      (commentsOf (ns.takeWhile isInlineComment))).append
      ((flattens_mark hsemicolon ";").append
        ((Flattens.of_eq (strokes_inlineComments ns).symm).append ih))
    simpa [nodesStrokes, hsplit, statementsStrokes, statementOf, endStrokes] using hall
  | case4 current n ns hsemicolon ih => simpa [nodesStrokes] using ih

lemma flattens_statementsOf (dialect : Dialect) (nodes : List Node) :
    Flattens (nodesStrokes nodes) (statementsStrokes (statementsOf dialect nodes)) := by
  simpa [statementsOf, nodesStrokes] using flattens_statementsFrom dialect [] nodes

/-! ## Groups

The strokes of what has been read, open groups included, are kept by each step of nesting.
-/

lemma flattens_groupOf (dialect : Dialect) (opening closing : Token) (nodes : List Node) :
    Flattens (.write opening :: (nodesStrokes nodes ++ [.write closing]))
      (groupOf dialect opening nodes closing).strokes := by
  unfold groupOf
  split
  · exact .cons (.refl _) ((flattens_statementsOf dialect nodes).append (.refl _))
  · have hcontents :=
      contentsStrokes_itemsFrom (cutsSound_predicateCuts false ⟨0, false, false⟩ nodes) []
    rw [map_snd_predicateCuts] at hcontents
    exact .cons (.refl _) ((Flattens.of_eq hcontents.symm).append (.refl _))

/-- Folding groups keeps every stroke in its place. -/
lemma flattens_nestLeaves {dialect : Dialect} {done leaves nodes : List Node} {frames : List Frame}
    (h : nestLeaves dialect done frames leaves = .ok nodes) :
    Flattens (pendingStrokes done frames ++ nodesStrokes leaves) (nodesStrokes nodes) := by
  fun_induction nestLeaves dialect done frames leaves with
  | case1 done =>
    obtain rfl := Except.ok.inj h
    exact .of_eq (by simp [pendingStrokes, nodesStrokes])
  | case2 => cases h
  | case3 done frames t ns hkind ih =>
    simpa [pendingStrokes, nodesStrokes, Node.strokes] using ih h
  | case4 => cases h
  | case5 done t ns hkind frame outer ih =>
    have hfolded := ((Flattens.refl (pendingStrokes frame.outer outer)).append
      (flattens_groupOf dialect frame.opening t done.reverse)).append (.refl (nodesStrokes ns))
    have hall := ih h
    rw [pendingStrokes_cons] at hall
    simpa [pendingStrokes, nodesStrokes, Node.strokes] using hfolded.trans hall
  | case6 done frames t ns h₁ h₂ ih => simpa [pendingStrokes_cons, nodesStrokes] using ih h
  | case7 done frames n ns hnot ih => simpa [pendingStrokes_cons, nodesStrokes] using ih h

/-- The leaves of tokens stand for them, blanks left out. -/
lemma standFor_leavesOf (fresh : Bool) (tokens : List Token) :
    List.Forall₂ Stroke.StandsFor (nodesStrokes (leavesOf fresh tokens))
      (tokens.filter (·.kind != .blank)) := by
  induction tokens generalizing fresh with
  | nil => exact .nil
  | cons t ts ih =>
    simp only [leavesOf]
    split
    · rename_i hblank
      simpa [hblank] using ih _
    · rename_i hblank
      have hkept : (t :: ts).filter (·.kind != .blank) = t :: ts.filter (·.kind != .blank) := by
        simp [hblank]
      rw [hkept, nodesStrokes]
      split
      · exact .cons rfl (ih false)
      · exact .cons rfl (ih false)

/-- **A script flattened is its tokens.**  Whatever tokens segmentation accepts, the strokes of the
script stand for them in order, each once, blanks left out. -/
theorem segment_flattens {dialect : Dialect} {tokens : List Token} {script : Script}
    (h : segment dialect tokens = .ok script) :
    List.Forall₂ Stroke.StandsFor (statementsStrokes script)
      (tokens.filter (·.kind != .blank)) := by
  have hleaves := standFor_leavesOf true tokens
  rw [segment, nestFrom_eq] at h
  cases hnest : nestLeaves dialect [] [] (leavesOf true tokens) with
  | error fault =>
    rw [hnest] at h
    cases h
  | ok nodes =>
    rw [hnest] at h
    obtain rfl : statementsOf dialect nodes = script := Except.ok.inj h
    have hnodes : Flattens (nodesStrokes (leavesOf true tokens)) (nodesStrokes nodes) := by
      simpa [pendingStrokes, nodesStrokes] using flattens_nestLeaves hnest
    exact (hnodes.trans (flattens_statementsOf dialect nodes)).standFor hleaves

/-- A group, a list in it, comments, a constructor and two statements, flattened. -/
theorem segment_flattens_two_statements :
    ∃ tokens script,
      tokenize "select new a.B(x, 1) from t -- n\n, u where (a or b, c) in (select 1);; -- end"
        = .ok tokens ∧ segment .jpql tokens = .ok script ∧
      List.Forall₂ Stroke.StandsFor (statementsStrokes script)
        (tokens.filter (·.kind != .blank)) := by
  have hparses :
      (parse "select new a.B(x, 1) from t -- n\n, u where (a or b, c) in (select 1);; -- end"
        .jpql).isOk = true := by decide +kernel
  cases h : parse "select new a.B(x, 1) from t -- n\n, u where (a or b, c) in (select 1);; -- end"
    .jpql with
  | error failure =>
    rw [h] at hparses
    cases hparses
  | ok script =>
    obtain ⟨tokens, htokens, hsegment⟩ := exists_tokens_of_parse h
    exact ⟨tokens, script, htokens, hsegment, segment_flattens hsegment⟩

end SqlInlay.Sql
