import SqlInlay.Proofs.Sql.Lossless
import SqlInlay.Proofs.Sql.Strokes

/-!
# What segmentation makes

Segmentation takes the nodes of a query apart into statements, clauses and items.  Some of what it
reads it does not keep as nodes: commas and semicolons become flags, and comments go from the clause
that they end to the clause that they lead.  Two things have to be known of the outcome before
anything can be said of a layout.

* It has the strokes of the nodes, each in its place, up to `Settled`.  This is why nothing of a
  query is lost or moved.
* It is sound, in the sense of `StatementsSound` and its companions: only clause words head a
  clause, an item without a comma behind it is followed by one that opens with a keyword or a
  comment, and so on.  Printing relies on this where it breaks lines.

Each function of segmentation is shown to do both at once, in a lemma `divide_…` of its name, and
`divide_segment` is what they come to for a whole query.

**Items.**  `divide_itemsFrom` is about any cuts that drop nothing but commas and start items at
keywords only (`CutsSound`).  The divisions at commas, in front of joins and in front of connectives
are three ways to get such cuts.

**Clauses.**  Nodes are divided at clause words first (`strokes_clausesFrom`,
`clausesStart_clausesFrom`) and the body of each clause afterwards (`divide_finish`).  In between
the comments at the end of a clause are handed on (`RawClause.strokes_closed_append_next`).

**Groups.**  A group is a script of its own or a list of operands (`divide_groupOf`), and
`divide_nestLeaves` goes through the groups that are open while tokens are read.

**Leaves.**  `leavesOf` lists the nodes that the tokens of a query are before any group is folded,
blanks left out.  `nestLeaves` folds the groups; `nestFrom_eq` says that this is what nesting does,
so nothing about a blank but the line feeds in front of comments reaches a script.

**Joins** that are put on the line of their table change neither soundness nor strokes
(`divide_mergeStatements`), so all of this holds of a script as it is printed, too.
-/

namespace SqlInlay.Sql

/-! ## Settled strokes

Strokes are compared place by place, and not as sets or up to a count.  So the length of the list is
kept as well, and what is known of the stroke at some place of a query is known of the stroke at
that place of the script.
-/

/-- A stroke becomes another one when its token, a comma or a semicolon, is kept as a flag, or when
it is a parenthesis and written without a space. -/
inductive Settles : Stroke → Stroke → Prop
  | refl (s : Stroke) : Settles s s
  | mark (t : Token) (h : t.kind = .comma ∨ t.kind = .semicolon) :
    Settles (.write t) (.mark t.kind t.text)
  | glue (t : Token) (h : t.kind = .openParen ∨ t.kind = .closeParen) :
    Settles (.write t) (.glue t)

lemma Settles.trans {r s t : Stroke} (h : Settles r s) (k : Settles s t) : Settles r t := by
  cases h with
  | refl => exact k
  | mark u hu =>
    cases k
    exact .mark u hu
  | glue u hu =>
    cases k
    exact .glue u hu

/-- Strokes become others, place by place.  There are as many of them, and each settles to its
counterpart. -/
def Settled (ss rs : List Stroke) : Prop := List.Forall₂ Settles ss rs

namespace Settled

variable {ss rs ts ss' rs' : List Stroke} {s r : Stroke}

@[refl] lemma refl (ss : List Stroke) : Settled ss ss := List.forall₂_same.2 fun s _ => .refl s

lemma of_eq (h : ss = rs) : Settled ss rs := h ▸ .refl ss

lemma cons (h : Settles s r) (hs : Settled ss rs) : Settled (s :: ss) (r :: rs) :=
  List.Forall₂.cons h hs

lemma append (h : Settled ss rs) (h' : Settled ss' rs') : Settled (ss ++ ss') (rs ++ rs') :=
  List.rel_append h h'

lemma trans (h : Settled ss rs) (k : Settled rs ts) : Settled ss ts := by
  induction h generalizing ts with
  | nil => exact k
  | cons h _ ih =>
    cases k with
    | cons k ks => exact .cons (h.trans k) (ih ks)

end Settled

/-! ## Comments and commas -/

/-- Comments taken out of their nodes are the strokes of the nodes. -/
lemma strokes_commentsOf {nodes : List Node} (h : ∀ n ∈ nodes, n.isComment = true) :
    (commentsOf nodes).map .comment = nodesStrokes nodes := by
  induction nodes with
  | nil => simp [commentsOf, nodesStrokes]
  | cons n ns ih =>
    have hn := h n (List.mem_cons_self ..)
    have hns := ih fun m hm => h m (List.mem_cons_of_mem _ hm)
    cases n with
    | comment c => simpa [commentsOf, nodesStrokes, Node.strokes, Node.comment?] using hns
    | token t => simp [Node.isComment, Node.comment?] at hn
    | query o s c => simp [Node.isComment, Node.comment?] at hn
    | list o is c => simp [Node.isComment, Node.comment?] at hn

@[simp] lemma strokes_trailingComments (nodes : List Node) :
    (commentsOf (trailingComments nodes)).map .comment = nodesStrokes (trailingComments nodes) :=
  strokes_commentsOf fun _ h => isComment_of_mem_trailingComments h

lemma strokes_inlineComments (nodes : List Node) :
    (commentsOf (nodes.takeWhile isInlineComment)).map .comment =
      nodesStrokes (nodes.takeWhile isInlineComment) := by
  refine strokes_commentsOf fun n hn => ?_
  have hinline := List.mem_takeWhile_imp hn
  simp only [isInlineComment, Bool.and_eq_true] at hinline
  exact hinline.1

/-- Comments taken out of sound nodes are comments. -/
lemma commentsSound_commentsOf {nodes : List Node} (h : NodesSound nodes) :
    CommentsSound (commentsOf nodes) := by
  intro c hc
  obtain ⟨n, hn, hnc⟩ := List.mem_filterMap.1 hc
  have hsound := nodesSound_iff.1 h n hn
  cases n with
  | comment d =>
    obtain rfl : d = c := by simpa [Node.comment?] using hnc
    simpa [Node.Sound] using hsound
  | token t => simp [Node.comment?] at hnc
  | query o s c => simp [Node.comment?] at hnc
  | list o is c => simp [Node.comment?] at hnc

lemma nodesSound_withoutTrailing {nodes : List Node} (h : NodesSound nodes) :
    NodesSound (withoutTrailing nodes) ∧ NodesSound (trailingComments nodes) := by
  rw [← nodesSound_append, withoutTrailing_append]
  exact h

lemma nodesStrokes_withoutTrailing (nodes : List Node) :
    nodesStrokes (withoutTrailing nodes) ++ nodesStrokes (trailingComments nodes) =
      nodesStrokes nodes := by
  rw [← nodesStrokes_append, withoutTrailing_append]

/-- A comma that becomes a flag. -/
lemma settles_comma {n : Node} (hn : n.Sound) (h : n.isKind .comma = true) :
    Settled n.strokes (commaStrokes true) := by
  cases n with
  | token t =>
    have hkind : t.kind = .comma := by simpa [Node.isKind, Node.token?] using h
    have hmark : Stroke.mark .comma "," = .mark t.kind t.text := by
      rw [hkind, Token.Sound.comma hn hkind]
    simp only [Node.strokes, commaStrokes, if_true, hmark]
    exact .cons (.mark t (.inl hkind)) (.refl [])
  | comment c => simp [Node.isKind, Node.token?] at h
  | query o s c => simp [Node.isKind, Node.token?] at h
  | list o is c => simp [Node.isKind, Node.token?] at h

/-- A semicolon that becomes a flag. -/
lemma settles_semicolon {n : Node} (hn : n.Sound) (h : n.isKind .semicolon = true) :
    Settled n.strokes (endStrokes true) := by
  cases n with
  | token t =>
    have hkind : t.kind = .semicolon := by simpa [Node.isKind, Node.token?] using h
    have hmark : Stroke.mark .semicolon ";" = .mark t.kind t.text := by
      rw [hkind, Token.Sound.semicolon hn hkind]
    simp only [Node.strokes, endStrokes, if_true, hmark]
    exact .cons (.mark t (.inr hkind)) (.refl [])
  | comment c => simp [Node.isKind, Node.token?] at h
  | query o s c => simp [Node.isKind, Node.token?] at h
  | list o is c => simp [Node.isKind, Node.token?] at h

/-! ## Items

The three ways of dividing a body differ in where they cut, and in nothing else.  What a cut may do
is said by `CutsSound`; the rest is one induction over the cuts.
-/

lemma itemsSound_openItem (commas : Bool) {nodes : List Node} (h : NodesSound nodes) :
    ItemsSound commas (openItem nodes) := by
  cases nodes with
  | nil => simp [openItem, ItemsSound]
  | cons n ns => exact ⟨h, trivial, trivial⟩

@[simp] lemma itemsStrokes_openItem (nodes : List Node) :
    itemsStrokes (openItem nodes) = nodesStrokes nodes := by
  cases nodes <;> simp [openItem, itemsStrokes, nodesStrokes, commaStrokes]

/-- What cuts may do: only commas are dropped, and only where items have commas behind them; only a
keyword starts an item. -/
structure CutsSound (commas : Bool) (cuts : List (Cut × Node)) : Prop where
  comma : ∀ n, (Cut.comma, n) ∈ cuts → commas = true ∧ n.isKind .comma = true
  before : ∀ n, (Cut.before, n) ∈ cuts → n.isKeyword = true

/-- Items open with the first node of the one at hand. -/
lemma openAnew_itemsFrom {n : Node} (h : n.isComment = true ∨ n.isKeyword = true)
    (ns : List Node) (cuts : List (Cut × Node)) : OpenAnew (itemsFrom (n :: ns) cuts) := by
  induction cuts generalizing ns with
  | nil => exact h
  | cons cut cuts ih =>
    obtain ⟨cut, m⟩ := cut
    cases cut with
    | comma => exact h
    | inside => exact ih (ns ++ [m])
    | before =>
      have hsplit := withoutTrailing_append (n :: ns)
      rw [itemsFrom]
      rcases hfront : withoutTrailing (n :: ns) with _ | ⟨k, ks⟩
      · rw [hfront, List.nil_append] at hsplit
        rw [hsplit]
        exact ih (ns ++ [m])
      · rw [hfront] at hsplit
        obtain ⟨rfl, -⟩ := List.cons.inj hsplit
        exact h

/-- What cuts make of nodes is sound and has their strokes.  The induction is over the cuts, for any
item at hand; a comma is dropped where it ends an item and comes back as the flag of that item. -/
lemma divide_itemsFrom {commas : Bool} {cuts : List (Cut × Node)} (hc : CutsSound commas cuts)
    {current : List Node} (hcurrent : NodesSound current)
    (hnodes : NodesSound (cuts.map Prod.snd)) :
    ItemsSound commas (itemsFrom current cuts) ∧
      Settled (nodesStrokes current ++ nodesStrokes (cuts.map Prod.snd))
        (itemsStrokes (itemsFrom current cuts)) := by
  induction cuts generalizing current with
  | nil =>
    refine ⟨itemsSound_openItem commas hcurrent, .of_eq ?_⟩
    simp [itemsFrom, nodesStrokes]
  | cons cut cuts ih =>
    have hrest : CutsSound commas cuts :=
      ⟨fun n hn => hc.comma n (List.mem_cons_of_mem _ hn),
        fun n hn => hc.before n (List.mem_cons_of_mem _ hn)⟩
    obtain ⟨cut, n⟩ := cut
    obtain ⟨hn, hns⟩ := hnodes
    cases cut with
    | comma =>
      obtain ⟨hcommas, hcomma⟩ := hc.comma n (List.mem_cons_self ..)
      obtain ⟨hsound, hstrokes⟩ := ih hrest (show NodesSound [] from trivial) hns
      refine ⟨⟨hcurrent, by simpa using hcommas, hsound⟩, ?_⟩
      exact (Settled.refl (nodesStrokes current)).append ((settles_comma hn hcomma).append hstrokes)
    | before =>
      obtain ⟨hfront, htrailing⟩ := nodesSound_withoutTrailing hcurrent
      have htaken : NodesSound (trailingComments current ++ [n]) := by
        simp [htrailing, NodesSound, hn]
      obtain ⟨hsound, hstrokes⟩ := ih hrest htaken hns
      have hkeyword := hc.before n (List.mem_cons_self ..)
      refine ⟨itemsSound_append (itemsSound_openItem commas hfront) hsound fun _ _ => .inr ?_, ?_⟩
      · -- the new item opens with the comments that were taken over, or else with the keyword
        rcases hcomments : trailingComments current with _ | ⟨m, ms⟩
        · exact openAnew_itemsFrom (.inr hkeyword) [] cuts
        · have hm : m ∈ trailingComments current := hcomments ▸ List.mem_cons_self ..
          exact openAnew_itemsFrom (.inl (isComment_of_mem_trailingComments hm)) (ms ++ [n]) cuts
      · have hall := (Settled.refl (nodesStrokes (withoutTrailing current))).append hstrokes
        rw [← nodesStrokes_withoutTrailing current]
        simpa [itemsFrom, nodesStrokes] using hall
    | inside =>
      have hgrown : NodesSound (current ++ [n]) := by simp [hcurrent, NodesSound, hn]
      obtain ⟨hsound, hstrokes⟩ := ih hrest hgrown hns
      exact ⟨hsound, by simpa [itemsFrom, nodesStrokes] using hstrokes⟩

lemma divide_itemsOf {commas : Bool} {cuts : List (Cut × Node)} (hc : CutsSound commas cuts)
    (hnodes : NodesSound (cuts.map Prod.snd)) :
    ItemsSound commas (itemsOf cuts) ∧
      Settled (nodesStrokes (cuts.map Prod.snd)) (itemsStrokes (itemsOf cuts)) :=
  divide_itemsFrom hc (show NodesSound [] from trivial) hnodes

lemma cutsSound_commaCuts (nodes : List Node) : CutsSound true (commaCuts nodes) := by
  constructor <;> intro n hn <;> simp only [commaCuts, List.mem_map, Prod.mk.injEq] at hn
  · obtain ⟨m, -, hcut, rfl⟩ := hn
    refine ⟨rfl, ?_⟩
    by_contra h
    simp [h] at hcut
  · obtain ⟨m, -, hcut, rfl⟩ := hn
    split at hcut <;> simp at hcut

lemma Node.isKeyword_of_spells {n : Node} (word : Keyword) (h : n.spells word = true) :
    n.isKeyword = true := by
  cases n with
  | token t =>
    have hkind : t.kind = .keyword word := by
      simpa [Node.spells, Node.token?, Token.spells] using h
    simp [Node.isKeyword, Node.token?, Token.isKeyword, hkind]
  | comment c => simp [Node.spells, Node.token?] at h
  | query o s c => simp [Node.spells, Node.token?] at h
  | list o is c => simp [Node.spells, Node.token?] at h

lemma Node.exists_spells {n : Node} {words : List Keyword} (h : n.spellsAny words = true) :
    ∃ t word, n = .token t ∧ t.kind = .keyword word ∧ word ∈ words := by
  cases n with
  | token t =>
    have hany : words.any t.spells = true := by
      simpa [Node.spellsAny, Node.token?, Token.spellsAny] using h
    obtain ⟨word, hmem, hword⟩ := List.any_eq_true.1 hany
    exact ⟨t, word, rfl, by simpa [Token.spells] using hword, hmem⟩
  | comment c => simp [Node.spellsAny, Node.token?] at h
  | query o s c => simp [Node.spellsAny, Node.token?] at h
  | list o is c => simp [Node.spellsAny, Node.token?] at h

/-- A join opens with a keyword. -/
lemma isKeyword_of_opensJoin {n : Node} {ns : List Node} (h : opensJoin (n :: ns) = true) :
    n.isKeyword = true := by
  simp only [opensJoin] at h
  split at h
  · obtain ⟨t, word, rfl, hword, -⟩ := Node.exists_spells ‹_›
    simp [Node.isKeyword, Node.token?, Token.isKeyword, hword]
  · exact Node.isKeyword_of_spells _ h

lemma cutsSound_fromCuts (before : Option Node) (nodes : List Node) :
    CutsSound true (fromCuts before nodes) := by
  refine ⟨fun n hn => ⟨rfl, (isKind_comma_of_mem_fromCuts hn).2⟩, fun n hn => ?_⟩
  induction nodes generalizing before with
  | nil => simp [fromCuts] at hn
  | cons m ns ih =>
    simp only [fromCuts] at hn
    split at hn
    · exact ih before (by simpa using hn)
    · split at hn
      · exact ih (some m) (by simpa using hn)
      · rcases List.mem_cons.1 hn with hcut | hn
        · rw [Prod.mk.injEq] at hcut
          obtain ⟨hcut, rfl⟩ := hcut
          split at hcut
          · rename_i hjoin
            rw [Bool.and_eq_true] at hjoin
            exact isKeyword_of_opensJoin hjoin.2
          · cases hcut
        · exact ih (some m) hn

/-- Only a connective starts an item of a predicate. -/
lemma PredicateState.spells_of_step_before {s : PredicateState} {t : Token}
    (h : (s.step t).1 = .before) : t.spells .AND = true ∨ t.spells .OR = true := by
  unfold PredicateState.step at h
  simp only at h
  repeat' split at h
  all_goals simp_all

lemma cutsSound_predicateCuts (commas : Bool) (s : PredicateState) (nodes : List Node) :
    CutsSound commas (predicateCuts s nodes) := by
  refine ⟨fun n hn => ?_, fun n hn => ?_⟩
  · fun_induction predicateCuts s nodes with
    | case1 => simp at hn
    | case2 s t ns ih =>
      rcases List.mem_cons.1 hn with hcut | hn
      · rw [Prod.mk.injEq] at hcut
        exact absurd hcut.1.symm (s.step_ne_comma t)
      · exact ih hn
    | case3 s c ns ih => exact ih (by simpa using hn)
    | case4 s m ns _ _ ih => exact ih (by simpa using hn)
  · fun_induction predicateCuts s nodes with
    | case1 => simp at hn
    | case2 s t ns ih =>
      rcases List.mem_cons.1 hn with hcut | hn
      · rw [Prod.mk.injEq] at hcut
        obtain ⟨hcut, rfl⟩ := hcut
        rcases PredicateState.spells_of_step_before hcut.symm with h | h
        · exact Node.isKeyword_of_spells .AND h
        · exact Node.isKeyword_of_spells .OR h
      · exact ih hn
    | case3 s c ns ih => exact ih (by simpa using hn)
    | case4 s m ns _ _ ih => exact ih (by simpa using hn)

lemma divide_splitCommas {nodes : List Node} (h : NodesSound nodes) :
    ItemsSound true (splitCommas nodes) ∧
      Settled (nodesStrokes nodes) (itemsStrokes (splitCommas nodes)) := by
  have hdivide := divide_itemsOf (cutsSound_commaCuts nodes) (by rwa [map_snd_commaCuts])
  rwa [map_snd_commaCuts] at hdivide

lemma divide_splitPredicate (commas : Bool) {nodes : List Node} (h : NodesSound nodes) :
    ItemsSound commas (splitPredicate nodes) ∧
      Settled (nodesStrokes nodes) (itemsStrokes (splitPredicate nodes)) := by
  have hdivide := divide_itemsOf (cutsSound_predicateCuts commas ⟨0, false, false⟩ nodes)
    (by rwa [map_snd_predicateCuts])
  rwa [map_snd_predicateCuts] at hdivide

/-- The items of a clause are sound and have its strokes. -/
lemma divide_splitItems (kind : ClauseKind) {nodes : List Node} (h : NodesSound nodes) :
    ItemsSound (!kind.isPredicate) (splitItems kind nodes) ∧
      Settled (nodesStrokes nodes) (itemsStrokes (splitItems kind nodes)) := by
  unfold splitItems
  split
  · rename_i hcomma
    have hkind : kind.isPredicate = false := by
      cases kind <;> simp_all [ClauseKind.isCommaList, ClauseKind.isPredicate]
    rw [hkind]
    exact divide_splitCommas h
  · split
    · exact divide_splitPredicate _ h
    · split
      · rename_i hkind
        subst hkind
        have hdivide := divide_itemsOf (cutsSound_fromCuts none nodes)
          (by rwa [map_snd_fromCuts])
        rwa [map_snd_fromCuts] at hdivide
      · exact ⟨itemsSound_openItem _ h, .of_eq (itemsStrokes_openItem nodes).symm⟩

/-- Operands put together are sound and have the strokes of the operands, which have no commas. -/
lemma undivide_contentsOf {commas : Bool} {operands : List (Item Node)}
    (h : ItemsSound commas operands) :
    NodesSound (contentsOf operands) ∧
      nodesStrokes (contentsOf operands) = contentsStrokes operands := by
  induction operands with
  | nil => exact ⟨trivial, rfl⟩
  | cons i is ih =>
    obtain ⟨nodes, comma⟩ := i
    obtain ⟨hnodes, -, his⟩ := h
    obtain ⟨hsound, hstrokes⟩ := ih his
    rw [contentsOf] at hsound hstrokes
    simp [contentsOf, hnodes, hsound, hstrokes, contentsStrokes]

/-! ## Clauses

While a statement is divided, the clause at hand is a `RawClause`: words, comments above it and
nodes.  Its strokes are those of its parts in this order, and closing it gives the comments at its
end to the clause that follows, where they have the same place.
-/

namespace RawClause

/-- The strokes of a clause whose nodes are not yet divided. -/
def strokes (c : RawClause) : List Stroke :=
  c.leading.map .comment ++ (c.keywords.map .write ++ nodesStrokes c.nodes)

/-- A clause whose nodes are not yet divided is as segmentation makes it. -/
structure Sound (c : RawClause) : Prop where
  keywords : ∀ t ∈ c.keywords, t.isClauseWord = true
  leading : CommentsSound c.leading
  nodes : NodesSound c.nodes

lemma strokes_of_isEmpty {c : RawClause} (h : c.isEmpty = true) : c.strokes = [] := by
  simp only [isEmpty, Bool.and_eq_true, List.isEmpty_iff] at h
  simp [strokes, h, nodesStrokes]

lemma strokes_toList (c : RawClause) : c.toList.flatMap strokes = c.strokes := by
  unfold toList
  split
  · simp [strokes_of_isEmpty ‹_›]
  · simp

lemma mem_toList {c d : RawClause} (h : d ∈ c.toList) : d = c := by
  unfold toList at h
  split at h <;> simp_all

lemma Sound.push {c : RawClause} (h : c.Sound) {n : Node} (hn : n.Sound) : (c.push n).Sound :=
  ⟨h.keywords, h.leading, nodesSound_append.2 ⟨h.nodes, hn, trivial⟩⟩

lemma Sound.closed {c : RawClause} (h : c.Sound) : c.closed.Sound :=
  ⟨h.keywords, h.leading, (nodesSound_withoutTrailing h.nodes).1⟩

lemma Sound.next {c : RawClause} (h : c.Sound) (kind : ClauseKind) {keywords : List Token}
    (hwords : ∀ t ∈ keywords, t.isClauseWord = true) : (c.next kind keywords).Sound :=
  ⟨hwords, commentsSound_commentsOf (nodesSound_withoutTrailing h.nodes).2, trivial⟩

/-- The comments that a clause gives up lead the next one. -/
lemma strokes_closed_append_next (c : RawClause) (kind : ClauseKind) (keywords : List Token) :
    c.closed.strokes ++ (c.next kind keywords).strokes = c.strokes ++ keywords.map .write := by
  conv_rhs => rw [strokes, ← nodesStrokes_withoutTrailing c.nodes]
  simp [closed, next, strokes, nodesStrokes]

end RawClause

/-- What starts a clause is a clause word, and so is the keyword behind it that belongs to it.  The
cases are the heads in their table; for each of them it is looked up that its words are clause
words. -/
lemma isClauseWord_of_clauseHead? {t : Token} {before : Option Token} {begun : Bool}
    {after : Option Node} {kind : ClauseKind} {double : Bool}
    (h : clauseHead? t before begun after = some (kind, double)) :
    t.isClauseWord = true ∧
      (double = true → ∃ u, after = some (.token u) ∧ u.isClauseWord = true) := by
  have hsecond : ∀ words : List Keyword, (∀ word ∈ words,
      Token.isClauseWord ⟨.keyword word, [], 0⟩ = true) → after.any (·.spellsAny words) = true →
      ∃ u, after = some (.token u) ∧ u.isClauseWord = true := by
    intro words hwords hafter
    obtain ⟨n, rfl, hn⟩ := (Option.any_eq_true _ _).1 hafter
    obtain ⟨u, word, rfl, hword, hmem⟩ := Node.exists_spells hn
    have hclause := hwords word hmem
    exact ⟨u, rfl, by simpa [Token.isClauseWord, Token.spellsAny, Token.spells, hword] using hclause⟩
  have hfirst : ∀ word, t.kind = .keyword word → Token.isClauseWord ⟨.keyword word, [], 0⟩ = true →
      t.isClauseWord = true := by
    intro word hword hclause
    simpa [Token.isClauseWord, Token.spellsAny, Token.spells, hword] using hclause
  unfold clauseHead? at h
  simp only at h
  split at h
  all_goals
    try split at h
  all_goals
    first
    | (cases h; done)
    | simp only [Option.some.injEq, Prod.mk.injEq] at h
      obtain ⟨-, rfl⟩ := h
      refine ⟨hfirst _ ‹_› (by decide), fun hdouble => ?_⟩
      first
      | (cases hdouble; done)
      | exact hsecond _ (by decide) hdouble
      | exact hsecond [.BY] (by decide) ‹_›

/-- Starting a clause keeps every stroke in its place, if going on from there does. -/
lemma strokes_start (c : RawClause) (kind : ClauseKind) (keywords : List Token)
    {clauses : List RawClause} {rest : List Node}
    (h : clauses.flatMap RawClause.strokes = (c.next kind keywords).strokes ++ nodesStrokes rest) :
    (c.closed.toList ++ clauses).flatMap RawClause.strokes =
      c.strokes ++ (keywords.map .write ++ nodesStrokes rest) := by
  rw [List.flatMap_append, RawClause.strokes_toList, h, ← List.append_assoc,
    RawClause.strokes_closed_append_next, List.append_assoc]

/-- Dividing nodes at clause keywords keeps every stroke in its place. -/
lemma strokes_clausesFrom (current : RawClause) (before : Option Token) (begun : Bool)
    (nodes : List Node) :
    (clausesFrom current before begun nodes).flatMap RawClause.strokes =
      current.strokes ++ nodesStrokes nodes := by
  have hpush : ∀ (c : RawClause) (n : Node), (c.push n).strokes = c.strokes ++ n.strokes := by
    intro c n
    simp [RawClause.push, RawClause.strokes, nodesStrokes]
  fun_induction clausesFrom current before begun nodes with
  | case1 => simp [RawClause.strokes_toList, nodesStrokes]
  | case2 current before begun t kind u rest hhead ih =>
    rw [strokes_start current kind [t, u] ih]
    simp [nodesStrokes, Node.strokes]
  | case3 current before begun t kind rest hnot hhead ih =>
    rw [strokes_start current kind [t] ih]
    simp [nodesStrokes, Node.strokes]
  | case4 current before begun t ns kind hhead ih =>
    rw [strokes_start current kind [t] ih]
    simp [nodesStrokes, Node.strokes]
  | case5 current before begun t ns hhead ih => simp [ih, hpush, nodesStrokes]
  | case6 current before begun c ns ih => simp [ih, hpush, nodesStrokes]
  | case7 current before begun n ns _ _ ih => simp [ih, hpush, nodesStrokes]

/-- The clauses behind the first one have keywords, and all are sound.  Only the preamble may do
without. -/
structure ClausesStart (clauses : List RawClause) : Prop where
  sound : ∀ c ∈ clauses, c.Sound
  keywords : ∀ c ∈ clauses.tail, c.keywords ≠ []

/-- Clauses behind the one at hand. -/
lemma ClausesStart.of_closed {current : RawClause} (h : current.Sound) {clauses : List RawClause}
    (hclauses : ClausesStart clauses) (hhead : ∀ c ∈ clauses.head?, c.keywords ≠ []) :
    ClausesStart (current.closed.toList ++ clauses) := by
  refine ⟨fun c hc => ?_, fun c hc => ?_⟩
  · rcases List.mem_append.1 hc with hc | hc
    · exact RawClause.mem_toList hc ▸ h.closed
    · exact hclauses.sound c hc
  · have hmem : c ∈ clauses := by
      unfold RawClause.toList at hc
      split at hc
      · exact List.mem_of_mem_tail hc
      · simpa using hc
    cases clauses with
    | nil => simp at hmem
    | cons d ds =>
      rcases List.mem_cons.1 hmem with rfl | hmem
      · exact hhead _ rfl
      · exact hclauses.keywords c hmem

/-- Clauses start with the one at hand, unless it is empty. -/
lemma keywords_head_clausesFrom {current : RawClause} (h : current.keywords ≠ [])
    (before : Option Token) (begun : Bool) (nodes : List Node) :
    ∀ c ∈ (clausesFrom current before begun nodes).head?, c.keywords ≠ [] := by
  have hlist : ∀ c : RawClause, c.keywords ≠ [] → c.toList = [c] := by
    intro c hc
    simp [RawClause.toList, RawClause.isEmpty, hc]
  have hclosed : ∀ c : RawClause, c.keywords ≠ [] → ∀ rest : List RawClause,
      ∀ d ∈ (c.closed.toList ++ rest).head?, d.keywords ≠ [] := by
    intro c hc rest d hd
    rw [hlist c.closed hc] at hd
    obtain rfl : c.closed = d := by simpa using hd
    exact hc
  fun_induction clausesFrom current before begun nodes with
  | case1 => simpa [hlist _ h] using h
  | case2 current => exact hclosed current h _
  | case3 current => exact hclosed current h _
  | case4 current => exact hclosed current h _
  | case5 current before begun t ns hhead ih => exact ih h
  | case6 current before begun c ns ih => exact ih h
  | case7 current before begun n ns _ _ ih => exact ih h

/-- The clauses of sound nodes.  Each clause but the first one starts with a keyword, and whatever
is pushed onto a sound clause leaves it sound. -/
lemma clausesStart_clausesFrom {current : RawClause} (h : current.Sound) (before : Option Token)
    (begun : Bool) {nodes : List Node} (hnodes : NodesSound nodes) :
    ClausesStart (clausesFrom current before begun nodes) := by
  fun_induction clausesFrom current before begun nodes with
  | case1 current =>
    refine ⟨fun c hc => RawClause.mem_toList hc ▸ h, fun c hc => ?_⟩
    unfold RawClause.toList at hc
    split at hc <;> simp at hc
  | case2 current before begun t kind u rest hhead ih =>
    obtain ⟨ht, hu⟩ := isClauseWord_of_clauseHead? hhead
    obtain ⟨v, hv, hword⟩ := hu rfl
    obtain rfl : u = v := by simpa using hv
    exact .of_closed h (ih (h.next kind (by simp [ht, hword])) hnodes.2.2)
      (keywords_head_clausesFrom (by simp [RawClause.next]) _ _ _)
  | case3 current before begun t kind rest hnot hhead ih =>
    obtain ⟨ht, -⟩ := isClauseWord_of_clauseHead? hhead
    exact .of_closed h (ih (h.next kind (by simp [ht])) hnodes.2)
      (keywords_head_clausesFrom (by simp [RawClause.next]) _ _ _)
  | case4 current before begun t ns kind hhead ih =>
    obtain ⟨ht, -⟩ := isClauseWord_of_clauseHead? hhead
    exact .of_closed h (ih (h.next kind (by simp [ht])) hnodes.2)
      (keywords_head_clausesFrom (by simp [RawClause.next]) _ _ _)
  | case5 current before begun t ns hhead ih => exact ih (h.push hnodes.1) hnodes.2
  | case6 current before begun c ns ih => exact ih (h.push hnodes.1) hnodes.2
  | case7 current before begun n ns _ _ ih => exact ih (h.push hnodes.1) hnodes.2

/-- The tokens of a dotted name are its nodes. -/
lemma strokes_of_dottedName? {nodes : List Node} {name : List Token}
    (h : dottedName? nodes = some name) :
    nodesStrokes nodes = name.map .write ∧ ∀ t ∈ name, t.kind = .identifier ∨ t.kind = .dot := by
  fun_induction dottedName? nodes generalizing name with
  | case1 t ht =>
    obtain rfl : [t] = name := by simpa using h
    simp [nodesStrokes, Node.strokes, ht]
  | case2 t ht => simp at h
  | case3 t d ns hkinds ih =>
    obtain ⟨rest, hrest, rfl⟩ := Option.map_eq_some_iff.1 h
    obtain ⟨hstrokes, hname⟩ := ih hrest
    refine ⟨by simp [nodesStrokes, Node.strokes, hstrokes], fun u hu => ?_⟩
    rcases List.mem_cons.1 hu with rfl | hu
    · exact .inl hkinds.1
    · rcases List.mem_cons.1 hu with rfl | hu
      · exact .inr hkinds.2
      · exact hname u hu
  | case4 t d ns hkinds => simp at h
  | case5 => simp at h

/-- A construction is made of `NEW`, a name and a group. -/
lemma exists_of_construction? {nodes : List Node} {c : Construction Node}
    (h : construction? nodes = some c) :
    ∃ name operands, nodes = .token c.new :: (name ++ [.list c.opening operands c.closing]) ∧
      c.new.kind = .keyword .NEW ∧ dottedName? name = some c.typeName ∧
      c.arguments = splitCommas (contentsOf operands) := by
  unfold construction? at h
  split at h
  · rename_i new rest
    split at h
    · rename_i opening operands closing name hlast hname
      split at h
      · rename_i hnew
        obtain rfl := Option.some.inj h
        refine ⟨rest.dropLast, operands, ?_, by simpa [Token.spells] using hnew, hname, rfl⟩
        have hne : rest ≠ [] := by rintro rfl; simp at hlast
        have hget := List.dropLast_append_getLast hne
        rw [List.getLast?_eq_some_getLast hne, Option.some.injEq] at hlast
        rw [hlast] at hget
        rw [hget]
      · simp at h
    · simp at h
  · simp at h

/-- A construction is sound and has the strokes of its nodes. -/
lemma divide_construction? {nodes : List Node} {c : Construction Node} (hnodes : NodesSound nodes)
    (h : construction? nodes = some c) (kind : ClauseKind) :
    BodySound kind (.construction c) ∧
      Settled (nodesStrokes nodes) (bodyStrokes (.construction c)) := by
  obtain ⟨name, operands, rfl, hnew, hname, harguments⟩ := exists_of_construction? h
  obtain ⟨new, typeName, opening, arguments, closing⟩ := c
  obtain ⟨hstrokes, hkinds⟩ := strokes_of_dottedName? hname
  simp only [NodesSound, nodesSound_append, Node.Sound] at hnodes
  obtain ⟨-, -, ⟨hopening, hclosing, hoperands⟩, -⟩ := hnodes
  obtain ⟨hcontents, hflat⟩ := undivide_contentsOf hoperands
  obtain ⟨hsound, hsettled⟩ := divide_splitCommas hcontents
  simp only at harguments hnew hopening hclosing
  subst harguments
  refine ⟨⟨hnew, hkinds, hopening, hclosing, hsound⟩, ?_⟩
  rw [hflat] at hsettled
  have hgroup : Settled (.write opening :: (contentsStrokes operands ++ [.write closing]))
      (.glue opening :: (itemsStrokes (splitCommas (contentsOf operands)) ++ [.glue closing])) :=
    .cons (.glue _ (.inl hopening)) (hsettled.append (.cons (.glue _ (.inr hclosing)) (.refl [])))
  have hall := (Settled.refl ((new :: typeName).map .write)).append hgroup
  simpa [nodesStrokes, Node.strokes, bodyStrokes, hstrokes] using hall

/-- Dividing a clause into items, or reading it as a construction, keeps its strokes and makes a
body that is sound for its kind. -/
lemma divide_finish (dialect : Dialect) {c : RawClause} (h : c.Sound) :
    BodySound c.kind (c.finish dialect).body ∧
      Settled c.strokes (clausesStrokes [c.finish dialect]) := by
  obtain ⟨hfront, -⟩ := nodesSound_withoutTrailing h.nodes
  have hbody : BodySound c.kind (c.finish dialect).body ∧
      Settled (nodesStrokes (withoutTrailing c.nodes)) (bodyStrokes (c.finish dialect).body) := by
    simp only [RawClause.finish]
    split
    · rename_i construction hc
      split at hc
      · exact divide_construction? hfront hc _
      · simp at hc
    · obtain ⟨hsound, hsettled⟩ := divide_splitItems c.kind hfront
      exact ⟨hsound, hsettled⟩
  obtain ⟨hsound, hsettled⟩ := hbody
  refine ⟨hsound, ?_⟩
  rw [RawClause.strokes, ← nodesStrokes_withoutTrailing c.nodes, ← strokes_trailingComments]
  have hclause := (Settled.refl (c.leading.map .comment)).append ((Settled.refl
    (c.keywords.map .write)).append (hsettled.append (.refl
    ((commentsOf (trailingComments c.nodes)).map .comment))))
  simpa [clausesStrokes, RawClause.finish] using hclause

/-- Dividing all clauses of a statement into items. -/
lemma divide_finishAll (dialect : Dialect) {clauses : List RawClause} {first : Bool}
    (hsound : ∀ c ∈ clauses, c.Sound) (htail : ∀ c ∈ clauses.tail, c.keywords ≠ [])
    (hfirst : ∀ c ∈ clauses.head?, c.keywords = [] → first = true) :
    ClausesSound first (clauses.map (·.finish dialect)) ∧
      Settled (clauses.flatMap RawClause.strokes)
        (clausesStrokes (clauses.map (·.finish dialect))) := by
  induction clauses generalizing first with
  | nil => exact ⟨trivial, .nil⟩
  | cons c cs ih =>
    have hc := hsound c (List.mem_cons_self ..)
    have hcs := @ih false (fun d hd => hsound d (List.mem_cons_of_mem _ hd))
      (fun d hd => htail d (List.mem_of_mem_tail hd))
      (fun d hd hnil => absurd hnil (htail d (List.mem_of_mem_head? hd)))
    obtain ⟨hbody, hsettled⟩ := divide_finish dialect hc
    refine ⟨⟨fun hnil => hfirst c rfl hnil, hc.keywords, hc.leading, hbody,
      commentsSound_commentsOf (nodesSound_withoutTrailing hc.nodes).2, hcs.1⟩, ?_⟩
    rw [List.flatMap_cons, List.map_cons, ← List.singleton_append, clausesStrokes_append]
    exact hsettled.append hcs.2

/-! ## Statements -/

lemma rawSound_preamble : RawClause.preamble.Sound :=
  ⟨by simp [RawClause.preamble], by simp [RawClause.preamble, CommentsSound], trivial⟩

/-- The clauses of a statement. -/
lemma divide_statementOf (dialect : Dialect) {nodes : List Node} (h : NodesSound nodes)
    (terminated : Bool) (trailing : List Comment) :
    ClausesSound true (statementOf dialect nodes terminated trailing).clauses ∧
      Settled (nodesStrokes nodes)
        (clausesStrokes (statementOf dialect nodes terminated trailing).clauses) := by
  obtain ⟨hsound, htail⟩ := clausesStart_clausesFrom rawSound_preamble none false h
  have hall := divide_finishAll dialect hsound htail fun _ _ _ => Eq.refl true
  have hstrokes := strokes_clausesFrom .preamble none false nodes
  have hpreamble : RawClause.preamble.strokes = [] := rfl
  rw [hpreamble, List.nil_append] at hstrokes
  rwa [hstrokes] at hall

/-- Dividing nodes at semicolons.  The comments behind a semicolon on its line belong to the
statement in front of it, and they are put down behind the semicolon, so that they keep their place
as well. -/
lemma divide_statementsFrom (dialect : Dialect) {current nodes : List Node}
    (hcurrent : NodesSound current) (hnodes : NodesSound nodes) :
    StatementsSound (statementsFrom dialect current nodes) ∧
      Settled (nodesStrokes current ++ nodesStrokes nodes)
        (statementsStrokes (statementsFrom dialect current nodes)) := by
  fun_induction statementsFrom dialect current nodes with
  | case1 current hempty =>
    rw [List.isEmpty_iff] at hempty
    subst hempty
    exact ⟨trivial, .nil⟩
  | case2 current hne =>
    obtain ⟨hsound, hsettled⟩ := divide_statementOf dialect hcurrent false []
    refine ⟨⟨hsound, by simp [CommentsSound], .inr rfl, trivial⟩, ?_⟩
    simpa [statementsStrokes, endStrokes, statementOf, nodesStrokes] using hsettled
  | case3 current n ns hsemicolon ih =>
    obtain ⟨hn, hns⟩ := hnodes
    rw [← List.takeWhile_append_dropWhile (p := isInlineComment) (l := ns), nodesSound_append]
      at hns
    obtain ⟨hsound, hsettled⟩ := divide_statementOf dialect hcurrent true
      (commentsOf (ns.takeWhile isInlineComment))
    obtain ⟨hrest, hrestSettled⟩ := ih trivial hns.2
    refine ⟨⟨hsound, commentsSound_commentsOf hns.1, .inl rfl, hrest⟩, ?_⟩
    have hsplit : nodesStrokes ns = nodesStrokes (ns.takeWhile isInlineComment) ++
        nodesStrokes (ns.dropWhile isInlineComment) := by
      rw [← nodesStrokes_append, List.takeWhile_append_dropWhile]
    have hall := hsettled.append ((settles_semicolon hn hsemicolon).append
      ((Settled.of_eq (strokes_inlineComments ns).symm).append hrestSettled))
    simpa [nodesStrokes, hsplit, statementsStrokes, statementOf] using hall
  | case4 current n ns hsemicolon ih =>
    obtain ⟨hn, hns⟩ := hnodes
    obtain ⟨hsound, hsettled⟩ := ih (by simp [hcurrent, NodesSound, hn]) hns
    exact ⟨hsound, by simpa [nodesStrokes] using hsettled⟩

/-- The script of sound nodes. -/
lemma divide_statementsOf (dialect : Dialect) {nodes : List Node} (h : NodesSound nodes) :
    StatementsSound (statementsOf dialect nodes) ∧
      Settled (nodesStrokes nodes) (statementsStrokes (statementsOf dialect nodes)) := by
  have hall := divide_statementsFrom dialect (show NodesSound [] from trivial) h
  simpa [statementsOf, nodesStrokes] using hall

/-! ## Groups

Nesting keeps a stack of groups that are open, each with the nodes in front of it.  `pendingStrokes`
lists what has been read in the order of the query, and each step of nesting adds one stroke to it
or puts a group together.
-/

/-- The group of sound nodes. -/
lemma divide_groupOf (dialect : Dialect) {opening closing : Token} {nodes : List Node}
    (hopening : opening.kind = .openParen) (hclosing : closing.kind = .closeParen)
    (h : NodesSound nodes) :
    (groupOf dialect opening nodes closing).Sound ∧
      Settled (.write opening :: (nodesStrokes nodes ++ [.write closing]))
        (groupOf dialect opening nodes closing).strokes := by
  unfold groupOf
  split
  · obtain ⟨hsound, hsettled⟩ := divide_statementsOf dialect h
    exact ⟨⟨hopening, hclosing, hsound⟩, .cons (.refl _) (hsettled.append (.refl _))⟩
  · obtain ⟨hsound, hsettled⟩ := divide_splitPredicate false h
    rw [itemsStrokes_eq_contentsStrokes hsound] at hsettled
    exact ⟨⟨hopening, hclosing, hsound⟩, .cons (.refl _) (hsettled.append (.refl _))⟩

/-- The nodes that tokens are before groups are folded, blanks left out; `fresh` says that nothing
has been read on the current line. -/
def leavesOf (fresh : Bool) : List Token → List Node
  | [] => []
  | t :: ts =>
    if t.kind = .blank then leavesOf (fresh || '\n' ∈ t.text) ts
    else (if t.isComment then .comment ⟨t, fresh⟩ else .token t) :: leavesOf false ts

/-- Groups folded; `done` and `frames` are as in `nestFrom`.  A parenthesis without a partner comes
back with what is wrong about it. -/
def nestLeaves (dialect : Dialect) (done : List Node) (frames : List Frame) :
    List Node → Except (Token × Imbalance) (List Node)
  | [] =>
    match frames with
    | [] => .ok done.reverse
    | frame :: _ => .error (frame.opening, .unclosedOpening)
  | .token t :: ns =>
    match t.kind with
    | .openParen => nestLeaves dialect [] (⟨t, done⟩ :: frames) ns
    | .closeParen =>
      match frames with
      | [] => .error (t, .unmatchedClosing)
      | frame :: outer =>
        nestLeaves dialect (groupOf dialect frame.opening done.reverse t :: frame.outer) outer ns
    | _ => nestLeaves dialect (.token t :: done) frames ns
  | n :: ns => nestLeaves dialect (n :: done) frames ns

/-- What is wrong about a parenthesis, as a failure. -/
def imbalance (fault : Token × Imbalance) : Failure := .structural fault.1.offset fault.2

/-- **Nesting reads leaves.**  Blanks play no part but for line feeds in front of comments, and a
fault is found at the same parenthesis. -/
lemma nestFrom_eq (dialect : Dialect) (fresh : Bool) (done : List Node) (frames : List Frame)
    (tokens : List Token) :
    nestFrom dialect fresh done frames tokens =
      (nestLeaves dialect done frames (leavesOf fresh tokens)).mapError imbalance := by
  fun_induction nestFrom dialect fresh done frames tokens with
  | case1 fresh done => rfl
  | case2 fresh done frame frames => rfl
  | case3 fresh done frames t ts hkind ih => rw [ih, leavesOf, if_pos hkind]
  | case4 fresh done frames t ts hkind ih =>
    rw [ih, leavesOf, if_neg (by simp [hkind]), if_neg (by simp [Token.isComment, hkind])]
    simp [nestLeaves, hkind]
  | case5 fresh done t ts hkind =>
    rw [leavesOf, if_neg (by simp [hkind]), if_neg (by simp [Token.isComment, hkind])]
    simp [nestLeaves, hkind, Except.mapError, imbalance]
  | case6 fresh done t ts hkind frame outer group ih =>
    rw [ih, leavesOf, if_neg (by simp [hkind]), if_neg (by simp [Token.isComment, hkind])]
    simp [nestLeaves, hkind, group]
  | case7 fresh done frames t ts hkind ih =>
    rw [ih, leavesOf, if_neg (by simp [hkind]), if_pos (by simp [Token.isComment, hkind])]
    rfl
  | case8 fresh done frames t ts hkind ih =>
    rw [ih, leavesOf, if_neg (by simp [hkind]), if_pos (by simp [Token.isComment, hkind])]
    rfl
  | case9 fresh done frames t ts h₁ h₂ h₃ h₄ h₅ ih =>
    have hcode : t.isComment = false := by
      rw [Token.isComment, Bool.or_eq_false_iff, beq_eq_false_iff_ne, beq_eq_false_iff_ne]
      exact ⟨h₄, h₅⟩
    rw [ih, leavesOf, if_neg h₁, if_neg (by simp [hcode])]
    simp only [nestLeaves]

/-- The strokes of what has been read in front of some leaves. -/
def pendingStrokes (done : List Node) : List Frame → List Stroke
  | [] => nodesStrokes done.reverse
  | ⟨opening, outer⟩ :: frames =>
    pendingStrokes outer frames ++ .write opening :: nodesStrokes done.reverse

lemma pendingStrokes_cons (n : Node) (done : List Node) (frames : List Frame) :
    pendingStrokes (n :: done) frames = pendingStrokes done frames ++ n.strokes := by
  cases frames <;> simp [pendingStrokes, nodesStrokes]

/-- What has been read is sound: the nodes in front of each parenthesis that is open, and the
parenthesis. -/
def FramesSound (frames : List Frame) : Prop :=
  ∀ frame ∈ frames, frame.opening.kind = .openParen ∧ NodesSound frame.outer.reverse

/-- Folding groups keeps every stroke in its place.  The induction is over the leaves, for any
groups that are open: an opening parenthesis opens another one, and a closing one puts the innermost
together and goes on with the nodes in front of it. -/
lemma divide_nestLeaves {dialect : Dialect} {done leaves nodes : List Node} {frames : List Frame}
    (h : nestLeaves dialect done frames leaves = .ok nodes) (hdone : NodesSound done.reverse)
    (hframes : FramesSound frames) (hleaves : NodesSound leaves) :
    NodesSound nodes ∧
      Settled (pendingStrokes done frames ++ nodesStrokes leaves) (nodesStrokes nodes) := by
  have hpush : ∀ {n : Node} {done : List Node}, NodesSound done.reverse → n.Sound →
      NodesSound (n :: done).reverse := by
    intro n done hdone hn
    rw [List.reverse_cons, nodesSound_append]
    exact ⟨hdone, hn, trivial⟩
  fun_induction nestLeaves dialect done frames leaves with
  | case1 done =>
    obtain rfl : done.reverse = nodes := by simpa using h
    exact ⟨hdone, .of_eq (by simp [pendingStrokes, nodesStrokes])⟩
  | case2 => cases h
  | case3 done frames t ns hkind ih =>
    have hpending : FramesSound (⟨t, done⟩ :: frames) := by
      intro frame hframe
      rcases List.mem_cons.1 hframe with rfl | hframe
      · exact ⟨hkind, hdone⟩
      · exact hframes frame hframe
    obtain ⟨hsound, hsettled⟩ := ih h trivial hpending hleaves.2
    exact ⟨hsound, by simpa [pendingStrokes, nodesStrokes, Node.strokes] using hsettled⟩
  | case4 => cases h
  | case5 done t ns hkind frame outer ih =>
    obtain ⟨hopening, houter⟩ := hframes frame (List.mem_cons_self ..)
    obtain ⟨hgroup, hgroupSettled⟩ := divide_groupOf dialect hopening hkind hdone
    obtain ⟨hsound, hsettled⟩ := ih h (hpush houter hgroup)
      (fun f hf => hframes f (List.mem_cons_of_mem _ hf)) hleaves.2
    refine ⟨hsound, ?_⟩
    rw [pendingStrokes_cons] at hsettled
    have hfolded := ((Settled.refl (pendingStrokes frame.outer outer)).append
      hgroupSettled).append (.refl (nodesStrokes ns))
    simpa [pendingStrokes, nodesStrokes, Node.strokes] using hfolded.trans hsettled
  | case6 done frames t ns h₁ h₂ ih =>
    obtain ⟨hsound, hsettled⟩ := ih h (hpush hdone hleaves.1) hframes hleaves.2
    exact ⟨hsound, by simpa [pendingStrokes_cons, nodesStrokes] using hsettled⟩
  | case7 done frames n ns hnot ih =>
    obtain ⟨hsound, hsettled⟩ := ih h (hpush hdone hleaves.1) hframes hleaves.2
    exact ⟨hsound, by simpa [pendingStrokes_cons, nodesStrokes] using hsettled⟩

/-- The leaves of sound tokens are sound. -/
lemma nodesSound_leavesOf {tokens : List Token}
    (h : ∀ t ∈ tokens, t.isComment = false → t.Sound) (fresh : Bool) :
    NodesSound (leavesOf fresh tokens) := by
  induction tokens generalizing fresh with
  | nil => trivial
  | cons t ts ih =>
    have hts := fun fresh => ih (fun u hu => h u (List.mem_cons_of_mem _ hu)) fresh
    simp only [leavesOf]
    split
    · exact hts _
    · refine ⟨?_, hts _⟩
      split
      · assumption
      · rename_i hcode
        exact h t (List.mem_cons_self ..) (by simpa using hcode)

/-- **Segmentation divides.**  A script is sound, and its strokes are the leaves of its tokens, each
in its place. -/
theorem divide_segment {dialect : Dialect} {tokens : List Token} {script : Script}
    (h : segment dialect tokens = .ok script)
    (htokens : ∀ t ∈ tokens, t.isComment = false → t.Sound) :
    StatementsSound script ∧
      Settled (nodesStrokes (leavesOf true tokens)) (statementsStrokes script) := by
  rw [segment, nestFrom_eq] at h
  cases hnest : nestLeaves dialect [] [] (leavesOf true tokens) with
  | error fault =>
    rw [hnest] at h
    cases h
  | ok nodes =>
    rw [hnest] at h
    obtain rfl : statementsOf dialect nodes = script := Except.ok.inj h
    obtain ⟨hnodes, hsettled⟩ := divide_nestLeaves hnest trivial (by simp [FramesSound])
      (nodesSound_leavesOf htokens true)
    obtain ⟨hscript, hscriptSettled⟩ := divide_statementsOf dialect hnodes
    exact ⟨hscript, (by simpa [pendingStrokes, nodesStrokes] using hsettled : Settled _ _).trans
      hscriptSettled⟩

/-! ## Joins on the line of their table

A style without lines for joins prints a script in which joins are taken back into the items in
front of them.  The recursion goes through all groups, so there is one lemma for each type of the
script.
-/

/-- An item that takes in joins keeps every stroke in its place; it stops at a comma. -/
lemma strokes_absorbJoins (first : Item Node) (is : List (Item Node)) :
    itemsStrokes (absorbJoins first is) = itemsStrokes (first :: is) := by
  induction is generalizing first with
  | nil => rfl
  | cons i is ih =>
    obtain ⟨nodes, comma⟩ := first
    simp only [absorbJoins]
    split
    · rename_i hjoin
      simp only [Bool.and_eq_true, Bool.not_eq_true'] at hjoin
      rw [ih]
      simp [itemsStrokes, hjoin.2, commaStrokes]
    · simp [itemsStrokes, ih]

/-- Absorbing joins leaves the first item its first node. -/
lemma openAnew_absorbJoins {first : Item Node} {is : List (Item Node)}
    (h : OpenAnew (first :: is)) : OpenAnew (absorbJoins first is) := by
  induction is generalizing first with
  | nil => exact h
  | cons i is ih =>
    obtain ⟨nodes, comma⟩ := first
    rcases nodes with _ | ⟨n, ns⟩
    · exact absurd h id
    · simp only [absorbJoins]
      split
      · exact @ih ⟨n :: ns ++ i.nodes, i.comma⟩ h
      · exact h

lemma itemsSound_absorbJoins {commas : Bool} {first : Item Node} {is : List (Item Node)}
    (h : ItemsSound commas (first :: is)) : ItemsSound commas (absorbJoins first is) := by
  induction is generalizing first with
  | nil => exact h
  | cons i is ih =>
    obtain ⟨nodes, comma⟩ := first
    obtain ⟨nodes', comma'⟩ := i
    obtain ⟨hnodes, hcomma, hnodes', hcomma', his⟩ := h
    simp only [absorbJoins]
    split
    · exact ih ⟨nodesSound_append.2 ⟨hnodes, hnodes'⟩, hcomma', his⟩
    · refine ⟨hnodes, ?_, ih ⟨hnodes', hcomma', his⟩⟩
      cases comma with
      | true => exact hcomma
      | false => exact openAnew_absorbJoins hcomma

lemma divide_joinItems {commas : Bool} {is : List (Item Node)} (h : ItemsSound commas is) :
    ItemsSound commas (joinItems is) ∧ itemsStrokes (joinItems is) = itemsStrokes is := by
  cases is with
  | nil => exact ⟨h, rfl⟩
  | cons i is => exact ⟨itemsSound_absorbJoins h, strokes_absorbJoins i is⟩

/-- Joining inside a node leaves it a comment or a keyword if it was one. -/
lemma openAnew_mergeItems {is : List (Item Node)} (h : OpenAnew is) : OpenAnew (mergeItems is) := by
  rcases is with _ | ⟨⟨_ | ⟨n, ns⟩, comma⟩, is⟩
  · trivial
  · exact h
  · cases n <;> exact h

mutual

lemma Node.divide_mergeJoins (n : Node) (h : n.Sound) :
    n.mergeJoins.Sound ∧ n.mergeJoins.strokes = n.strokes := by
  match n with
  | .token t => exact ⟨h, rfl⟩
  | .comment c => exact ⟨h, rfl⟩
  | .query opening script closing =>
    obtain ⟨hopening, hclosing, hscript⟩ := h
    obtain ⟨hsound, hstrokes⟩ := divide_mergeStatements script hscript
    exact ⟨⟨hopening, hclosing, hsound⟩, by simp [Node.mergeJoins, Node.strokes, hstrokes]⟩
  | .list opening operands closing =>
    obtain ⟨hopening, hclosing, hoperands⟩ := h
    obtain ⟨hsound, hstrokes⟩ := divide_mergeItems operands hoperands
    rw [itemsStrokes_eq_contentsStrokes hsound, itemsStrokes_eq_contentsStrokes hoperands]
      at hstrokes
    exact ⟨⟨hopening, hclosing, hsound⟩, by simp [Node.mergeJoins, Node.strokes, hstrokes]⟩

lemma divide_mergeNodes (ns : List Node) (h : NodesSound ns) :
    NodesSound (mergeNodes ns) ∧ nodesStrokes (mergeNodes ns) = nodesStrokes ns := by
  match ns with
  | [] => exact ⟨trivial, rfl⟩
  | n :: ns =>
    obtain ⟨hn, hstrokes⟩ := n.divide_mergeJoins h.1
    obtain ⟨hns, hrest⟩ := divide_mergeNodes ns h.2
    exact ⟨⟨hn, hns⟩, by simp [mergeNodes, nodesStrokes, hstrokes, hrest]⟩

lemma divide_mergeItems {commas : Bool} (is : List (Item Node)) (h : ItemsSound commas is) :
    ItemsSound commas (mergeItems is) ∧ itemsStrokes (mergeItems is) = itemsStrokes is := by
  match is with
  | [] => exact ⟨trivial, rfl⟩
  | ⟨nodes, comma⟩ :: is =>
    obtain ⟨hnodes, hcomma, his⟩ := h
    obtain ⟨hsound, hstrokes⟩ := divide_mergeNodes nodes hnodes
    obtain ⟨hrest, hrestStrokes⟩ := divide_mergeItems is his
    refine ⟨⟨hsound, ?_, hrest⟩, by simp [mergeItems, itemsStrokes, hstrokes, hrestStrokes]⟩
    cases comma with
    | true => exact hcomma
    | false => exact openAnew_mergeItems hcomma

lemma divide_mergeBody (kind : ClauseKind) (body : Body Node) (h : BodySound kind body) :
    BodySound kind (mergeBody kind body) ∧ bodyStrokes (mergeBody kind body) = bodyStrokes body := by
  match body with
  | .items is =>
    obtain ⟨hsound, hstrokes⟩ := divide_mergeItems is h
    obtain ⟨hjoined, hjoinedStrokes⟩ := divide_joinItems hsound
    simp only [mergeBody, BodySound, bodyStrokes]
    split
    · exact ⟨hjoined, hjoinedStrokes.trans hstrokes⟩
    · exact ⟨hsound, hstrokes⟩
  | .construction ⟨new, typeName, opening, arguments, closing⟩ =>
    obtain ⟨hnew, htype, hopening, hclosing, harguments⟩ := h
    obtain ⟨hsound, hstrokes⟩ := divide_mergeItems arguments harguments
    exact ⟨⟨hnew, htype, hopening, hclosing, hsound⟩, by simp [mergeBody, bodyStrokes, hstrokes]⟩

lemma divide_mergeClauses {first : Bool} (cs : List (Clause Node)) (h : ClausesSound first cs) :
    ClausesSound first (mergeClauses cs) ∧
      clausesStrokes (mergeClauses cs) = clausesStrokes cs := by
  match cs with
  | [] => exact ⟨trivial, rfl⟩
  | ⟨kind, keywords, leading, body, trailing⟩ :: cs =>
    obtain ⟨hfirst, hkeywords, hleading, hbody, htrailing, hcs⟩ := h
    obtain ⟨hsound, hstrokes⟩ := divide_mergeBody kind body hbody
    obtain ⟨hrest, hrestStrokes⟩ := divide_mergeClauses cs hcs
    exact ⟨⟨hfirst, hkeywords, hleading, hsound, htrailing, hrest⟩,
      by simp [mergeClauses, clausesStrokes, hstrokes, hrestStrokes]⟩

lemma divide_mergeStatements (ss : List (Statement Node)) (h : StatementsSound ss) :
    StatementsSound (mergeStatements ss) ∧
      statementsStrokes (mergeStatements ss) = statementsStrokes ss := by
  match ss with
  | [] => exact ⟨trivial, rfl⟩
  | ⟨clauses, terminated, trailing⟩ :: ss =>
    obtain ⟨hclauses, htrailing, hlast, hss⟩ := h
    obtain ⟨hsound, hstrokes⟩ := divide_mergeClauses clauses hclauses
    obtain ⟨hrest, hrestStrokes⟩ := divide_mergeStatements ss hss
    refine ⟨⟨hsound, htrailing, hlast.imp id fun hnil => ?_, hrest⟩,
      by simp [mergeStatements, statementsStrokes, hstrokes, hrestStrokes]⟩
    rw [hnil, mergeStatements]

end

end SqlInlay.Sql
