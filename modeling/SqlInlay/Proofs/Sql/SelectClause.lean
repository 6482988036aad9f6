import SqlInlay.Proofs.Sql.Divisions
import SqlInlay.Proofs.Sql.Parentheses

/-!
# The clause of the first `SELECT`

If the first `SELECT` of a query stands outside parentheses, it opens a clause, and no clause of
that kind comes before it.  `exists_selectClause` says which tokens are in the clause: those behind
the keyword, up to what ends it.  The statement leads from a list of tokens to a clause of the
script and says what of the list has become of which part of the clause, so that whoever reads the
list without segmentation can compare.

**From tokens to nodes.**  What stands in front of the keyword is balanced, so nesting folds it by
itself, and likewise what stands behind (`exists_folds`).  From there on the argument is about
nodes, and `Folds` leads back to tokens in the end: a run of nodes that is put together of two comes
from two runs of tokens (`Folds.exists_append`).

**From nodes to the clause.**  Every clause starts at a keyword of its own, so clauses in front of
`SELECT` are of other kinds.

* `RawClause.OpensAt` — what stands behind the keyword: the rest of the head, the nodes of the
  clause, comments that the clause gives up, and what ends it.
* `Completes` — the clause at hand comes first among those that are still to come, with the nodes up
  to what ends it.
* `selectsFirst_clausesFrom` — the induction over the nodes in front of the keyword, with any clause
  at hand that does not select.
* `exists_selectClause?_statementsFrom` — the induction over the statements in front of it.
-/

namespace SqlInlay.Sql

variable {dialect : Dialect}

/-! ## Tokens with a meaning -/

/-- Tokens without blanks and comments. -/
def meaningful (tokens : List Token) : List Token := tokens.filter (!·.isTrivia)

@[simp] lemma meaningful_append (ts us : List Token) :
    meaningful (ts ++ us) = meaningful ts ++ meaningful us := List.filter_append ..

lemma meaningful_cons {t : Token} (h : t.isTrivia = false) (ts : List Token) :
    meaningful (t :: ts) = t :: meaningful ts := List.filter_cons_of_pos (by simp [h])

lemma meaningful_cons_of_isTrivia {t : Token} (h : t.isTrivia = true) (ts : List Token) :
    meaningful (t :: ts) = meaningful ts := List.filter_cons_of_neg (by simp [h])

lemma isTrivia_of_blank {t : Token} (h : t.kind = .blank) : t.isTrivia = true := by
  simp [Token.isTrivia, h]

lemma isTrivia_of_isComment {t : Token} (h : t.isComment = true) : t.isTrivia = true := by
  simp [Token.isTrivia, h]

lemma isTrivia_of_kind {t : Token} (h : t.kind = .openParen ∨ t.kind = .closeParen) :
    t.isTrivia = false := by
  rcases h with h | h <;> simp [Token.isTrivia, Token.isComment, h]

/-! ## Folded runs -/

namespace Folds

/-- A run of nodes that is put together of two comes from two runs of tokens.  A group comes from
all the tokens between its parentheses, so no cut between nodes falls within one. -/
lemma exists_append {ts : List Token} {ns ms : List Node} (h : Folds dialect ts (ns ++ ms)) :
    ∃ us vs, ts = us ++ vs ∧ Folds dialect us ns ∧ Folds dialect vs ms := by
  generalize hall : ns ++ ms = all at h
  induction h generalizing ns with
  | nil =>
    obtain ⟨rfl, rfl⟩ := List.append_eq_nil_iff.1 hall
    exact ⟨[], [], rfl, .nil, .nil⟩
  | blank hblank _ ih =>
    obtain ⟨us, vs, rfl, hus, hvs⟩ := ih hall
    exact ⟨_ :: us, vs, rfl, .blank hblank hus, hvs⟩
  | comment hcomment fresh hts ih =>
    rcases List.append_eq_cons_iff.1 hall with ⟨rfl, rfl⟩ | ⟨ns, rfl, hrest⟩
    · exact ⟨[], _, rfl, .nil, .comment hcomment fresh hts⟩
    · obtain ⟨us, vs, rfl, hus, hvs⟩ := ih hrest.symm
      exact ⟨_ :: us, vs, rfl, .comment hcomment fresh hus, hvs⟩
  | token hopen hclose htrivia hts ih =>
    rcases List.append_eq_cons_iff.1 hall with ⟨rfl, rfl⟩ | ⟨ns, rfl, hrest⟩
    · exact ⟨[], _, rfl, .nil, .token hopen hclose htrivia hts⟩
    · obtain ⟨us, vs, rfl, hus, hvs⟩ := ih hrest.symm
      exact ⟨_ :: us, vs, rfl, .token hopen hclose htrivia hus, hvs⟩
  | @group opening closing inner ts inside ns' hopen hclose hinner hts _ ih =>
    rcases List.append_eq_cons_iff.1 hall with ⟨rfl, rfl⟩ | ⟨ns, rfl, hrest⟩
    · exact ⟨[], _, rfl, .nil, .group hopen hclose hinner hts⟩
    · obtain ⟨us, vs, rfl, hus, hvs⟩ := ih hrest.symm
      exact ⟨opening :: (inner ++ closing :: us), vs, by simp, .group hopen hclose hinner hus, hvs⟩

/-- A group is no keyword. -/
lemma spells_groupOf (opening closing : Token) (nodes : List Node) (word : Keyword) :
    (groupOf dialect opening nodes closing).spells word = false := by
  unfold groupOf
  split <;> rfl

/-- Only a token that is a keyword folds to it. -/
lemma spells_eq_false {ts : List Token} {ns : List Node} (h : Folds dialect ts ns) {word : Keyword}
    (hts : ∀ t ∈ ts, t.spells word = false) : ∀ n ∈ ns, n.spells word = false := by
  induction h with
  | nil => simp
  | blank _ _ ih => exact ih (List.forall_mem_cons.1 hts).2
  | comment _ fresh _ ih =>
    exact List.forall_mem_cons.2 ⟨rfl, ih (List.forall_mem_cons.1 hts).2⟩
  | token _ _ _ _ ih =>
    obtain ⟨ht, hts⟩ := List.forall_mem_cons.1 hts
    exact List.forall_mem_cons.2 ⟨by simpa [Node.spells, Node.token?] using ht, ih hts⟩
  | group _ _ _ _ _ ih =>
    simp only [List.forall_mem_cons, List.forall_mem_append] at hts
    exact List.forall_mem_cons.2 ⟨spells_groupOf _ _ _ _, ih hts.2.2.2⟩

/-- Comments come from tokens without a meaning. -/
lemma meaningful_of_comments {ts : List Token} {ns : List Node} (h : Folds dialect ts ns)
    (hns : ∀ n ∈ ns, n.isComment = true) : meaningful ts = [] := by
  induction h with
  | nil => rfl
  | blank hblank _ ih =>
    rw [meaningful_cons_of_isTrivia (isTrivia_of_blank hblank), ih hns]
  | comment hcomment fresh _ ih =>
    rw [meaningful_cons_of_isTrivia (isTrivia_of_isComment hcomment),
      ih (List.forall_mem_cons.1 hns).2]
  | token => simp [Node.isComment, Node.comment?] at hns
  | group =>
    have hgroup := (List.forall_mem_cons.1 hns).1
    unfold groupOf at hgroup
    split at hgroup <;> simp [Node.isComment, Node.comment?] at hgroup

/-- Nodes that are tokens come from these tokens. -/
lemma meaningful_of_tokens {ts words : List Token} (h : Folds dialect ts (words.map .token)) :
    meaningful ts = words := by
  generalize hall : words.map Node.token = ns at h
  induction h generalizing words with
  | nil =>
    obtain rfl := List.map_eq_nil_iff.1 hall
    rfl
  | blank hblank _ ih =>
    rw [meaningful_cons_of_isTrivia (isTrivia_of_blank hblank), ih hall]
  | comment =>
    obtain ⟨t, words, rfl, ht, -⟩ := List.map_eq_cons_iff.1 hall
    cases ht
  | token _ _ htrivia _ ih =>
    obtain ⟨t, words, rfl, ht, hrest⟩ := List.map_eq_cons_iff.1 hall
    cases ht
    rw [meaningful_cons htrivia, ih hrest]
  | group =>
    obtain ⟨t, words, rfl, ht, -⟩ := List.map_eq_cons_iff.1 hall
    unfold groupOf at ht
    split at ht <;> cases ht

/-- A token in front of nodes is the first one with a meaning. -/
lemma head?_meaningful {ts : List Token} {ns : List Node} (h : Folds dialect ts ns)
    (hns : ∀ n ∈ ns.head?, ∃ t, n = .token t) :
    ∀ t ∈ (meaningful ts).head?, .token t ∈ ns.head? := by
  induction h with
  | nil => simp [meaningful]
  | blank hblank _ ih =>
    rw [meaningful_cons_of_isTrivia (isTrivia_of_blank hblank)]
    exact ih hns
  | comment =>
    obtain ⟨t, ht⟩ := hns _ rfl
    cases ht
  | token _ _ htrivia => simp [meaningful_cons htrivia]
  | group =>
    obtain ⟨t, ht⟩ := hns _ rfl
    unfold groupOf at ht
    split at ht <;> cases ht

end Folds

/-- **A keyword outside parentheses divides the nodes.**  What stands in front of it is folded by
itself, and so is what stands behind. -/
lemma exists_folds {front behind : List Token} {t : Token} {nodes : List Node}
    (h : nestFrom dialect true [] [] (front ++ t :: behind) = .ok nodes) (hfront : Balanced front)
    {word : Keyword} (ht : t.kind = .keyword word) :
    ∃ ns ms, nodes = ns ++ .token t :: ms ∧ Folds dialect front ns ∧ Folds dialect behind ms := by
  obtain ⟨fresh, ns, hns, hrun⟩ := hfront.exists_nestFrom dialect true [] []
  rw [hrun, List.append_nil] at h
  simp only [nestFrom, ht] at h
  rcases exists_stray_or_pending behind with ⟨inner, closing, back, rfl, hinner, hclose⟩ | hpending
  · rw [nestFrom_stray hinner hclose] at h
    cases h
  · rcases hpending.balanced_or_nestFrom with hbehind | ⟨-, opening, -, -, -, -, hunclosed⟩
    · obtain ⟨fresh', ms, hms, hbehind⟩ :=
        hbehind.exists_nestFrom dialect false (.token t :: ns.reverse) []
      have hend := hbehind []
      rw [List.append_nil] at hend
      rw [hend] at h
      refine ⟨ns, ms, ?_, hns, hms⟩
      simpa [nestFrom] using h.symm
    · rw [hunclosed] at h
      cases h

/-! ## Clauses -/

/-- Only `SELECT` opens a clause of its kind, and it is no second word of any head.  So the first
clause of its kind starts at the first such keyword outside parentheses. -/
lemma select_of_clauseHead? {t : Token} {before : Option Token} {begun double : Bool}
    {after : Option Node} {kind : ClauseKind}
    (h : clauseHead? t before begun after = some (kind, double)) :
    (kind = .select → t.spells .SELECT = true) ∧
      (double = true → ∀ n ∈ after, n.spells .SELECT = false) := by
  have hsecond : ∀ words : List Keyword, .SELECT ∉ words →
      after.any (·.spellsAny words) = true → ∀ n ∈ after, n.spells .SELECT = false := by
    intro words hwords hafter n hn
    rw [hn, Option.any_some] at hafter
    obtain ⟨u, word, rfl, hword, hmem⟩ := Node.exists_spells hafter
    simp only [Node.spells, Node.token?, Option.any_some, Token.spells, hword, beq_eq_false_iff_ne]
    intro heq
    cases heq
    exact hwords hmem
  unfold clauseHead? at h
  simp only at h
  split at h
  all_goals
    try split at h
  all_goals
    first
    | (cases h; done)
    | simp only [Option.some.injEq, Prod.mk.injEq] at h
      obtain ⟨rfl, rfl⟩ := h
      refine ⟨fun hkind => ?_, fun hdouble => ?_⟩
      · first
        | (cases hkind; done)
        | simp [Token.spells, *]
      · first
        | (cases hdouble; done)
        | exact hsecond _ (by decide) hdouble
        | exact hsecond [.BY] (by decide) ‹_›

/-- Another keyword opens a clause of another kind. -/
lemma kind_ne_select_of_clauseHead? {t : Token} {before : Option Token} {begun double : Bool}
    {after : Option Node} {kind : ClauseKind}
    (h : clauseHead? t before begun after = some (kind, double)) (ht : t.spells .SELECT = false) :
    kind ≠ .select := by
  intro hkind
  rw [(select_of_clauseHead? h).1 hkind] at ht
  cases ht

lemma clauseHead?_select {t : Token} (h : t.spells .SELECT = true) (before : Option Token)
    (begun : Bool) (after : Option Node) :
    clauseHead? t before begun after =
      some (.select, after.any (·.spellsAny [.DISTINCT, .ALL])) := by
  have hkind : t.kind = .keyword .SELECT := by simpa [Token.spells] using h
  simp [clauseHead?, hkind]

/-- A node that ends a clause. -/
def EndsClause (n : Node) : Prop :=
  ∃ t, n = .token t ∧ (t.kind = .semicolon ∨ t.isClauseWord = true)

namespace RawClause

/-- The clause is the one that a `SELECT` in front of some nodes opens: behind the keyword stand the
rest of the head, the nodes of the clause, comments that it gives up, and what ends it. -/
structure OpensAt (c : RawClause) (select : Token) (behind : List Node) : Prop where
  kind : c.kind = .select
  split : ∃ words comments rest, c.keywords = select :: words ∧
    (∀ w ∈ words, w.spellsAny [.DISTINCT, .ALL] = true) ∧
    behind = words.map .token ++ (c.nodes ++ (comments ++ rest)) ∧
    (∀ n ∈ comments, n.isComment = true) ∧ ∀ n ∈ rest.head?, EndsClause n

lemma OpensAt.append {c : RawClause} {select : Token} {behind : List Node}
    (h : c.OpensAt select behind) {more : List Node} (hmore : ∀ n ∈ more.head?, EndsClause n) :
    c.OpensAt select (behind ++ more) := by
  obtain ⟨hkind, words, comments, rest, hkeywords, hwords, rfl, hcomments, hrest⟩ := h
  refine ⟨hkind, words, comments, rest ++ more, hkeywords, hwords, by simp, hcomments, ?_⟩
  rw [List.head?_append]
  intro n hn
  rcases Option.or_eq_some_iff.1 hn with hn | ⟨-, hn⟩
  · exact hrest n hn
  · exact hmore n hn

end RawClause

/-- Clauses begin with the one at hand, completed with nodes up to what ends it; comments behind the
last node may go to the clause behind. -/
def Completes (current : RawClause) (nodes : List Node) (clauses : List RawClause) : Prop :=
  ∃ c cs taken comments rest, clauses = c :: cs ∧ c.kind = current.kind ∧
    c.keywords = current.keywords ∧ nodes = taken ++ rest ∧
    c.nodes ++ comments = current.nodes ++ taken ∧ (∀ n ∈ comments, n.isComment = true) ∧
    ∀ n ∈ rest.head?, EndsClause n

lemma toList_of_keywords {c : RawClause} (h : c.keywords ≠ []) : c.toList = [c] := by
  simp [RawClause.toList, RawClause.isEmpty, h]

/-- A clause word ends the clause at hand, which gives up its trailing comments. -/
lemma completes_closed {current : RawClause} (h : current.keywords ≠ []) {t : Token}
    (ht : t.isClauseWord = true) (nodes : List Node) (clauses : List RawClause) :
    Completes current (.token t :: nodes) (current.closed.toList ++ clauses) := by
  have hclosed : current.closed.toList = [current.closed] := toList_of_keywords h
  refine ⟨current.closed, clauses, [], trailingComments current.nodes, .token t :: nodes,
    by rw [hclosed, List.singleton_append], rfl, rfl, rfl, ?_,
    fun n hn => isComment_of_mem_trailingComments hn, fun n hn => ?_⟩
  · rw [List.append_nil]
    exact withoutTrailing_append current.nodes
  · obtain rfl : Node.token t = n := Option.some.inj hn
    exact ⟨t, rfl, .inr ht⟩

/-- Any other node goes to the clause at hand. -/
lemma Completes.of_push {current : RawClause} {n : Node} {nodes : List Node}
    {clauses : List RawClause} (h : Completes (current.push n) nodes clauses) :
    Completes current (n :: nodes) clauses := by
  obtain ⟨c, cs, taken, comments, rest, hc, hkind, hkeywords, rfl, hnodes, hcomments, hrest⟩ := h
  exact ⟨c, cs, n :: taken, comments, rest, hc, hkind, hkeywords, rfl,
    by simpa [RawClause.push] using hnodes, hcomments, hrest⟩

/-- A clause with keywords comes first, with the nodes up to what ends it. -/
lemma completes_clausesFrom {current : RawClause} (h : current.keywords ≠ [])
    (before : Option Token) (begun : Bool) (nodes : List Node) :
    Completes current nodes (clausesFrom current before begun nodes) := by
  fun_induction clausesFrom current before begun nodes with
  | case1 current =>
    exact ⟨current, [], [], [], [], toList_of_keywords h, rfl, rfl, rfl, rfl, by simp, by simp⟩
  | case2 current before begun t kind u rest hhead
  | case3 current before begun t kind rest hnot hhead
  | case4 current before begun t ns kind hhead =>
    exact completes_closed h (isClauseWord_of_clauseHead? hhead).1 _ _
  | case5 current before begun t ns hhead ih
  | case6 current before begun c ns ih
  | case7 current before begun n ns _ _ ih => exact .of_push (ih h)

/-- The clause at hand, if it is no selection, is none when it is closed. -/
lemma kind_closed_ne_select {current : RawClause} (h : current.kind ≠ .select) :
    ∀ c ∈ current.closed.toList, c.kind ≠ .select := by
  intro c hc
  rw [RawClause.mem_toList hc]
  exact h

/-- Clauses of nodes without `SELECT` are of other kinds. -/
lemma kind_ne_select {current : RawClause} (h : current.kind ≠ .select) (before : Option Token)
    (begun : Bool) {nodes : List Node} (hnodes : ∀ n ∈ nodes, n.spells .SELECT = false) :
    ∀ c ∈ clausesFrom current before begun nodes, c.kind ≠ .select := by
  have htoken : ∀ {t : Token}, (Node.token t).spells .SELECT = false →
      t.spells .SELECT = false := by
    intro t ht
    simpa [Node.spells, Node.token?] using ht
  fun_induction clausesFrom current before begun nodes with
  | case1 current =>
    intro c hc
    rw [RawClause.mem_toList hc]
    exact h
  | case2 current before begun t kind u rest hclause ih =>
    obtain ⟨ht, -, hrest⟩ : _ ∧ _ ∧ _ := by simpa using hnodes
    have hrest := ih (kind_ne_select_of_clauseHead? hclause (htoken ht)) hrest
    exact List.forall_mem_append.2 ⟨kind_closed_ne_select h, hrest⟩
  | case3 current before begun t kind rest hnot hclause ih
  | case4 current before begun t rest kind hclause ih =>
    obtain ⟨ht, hrest⟩ := List.forall_mem_cons.1 hnodes
    have hrest := ih (kind_ne_select_of_clauseHead? hclause (htoken ht)) hrest
    exact List.forall_mem_append.2 ⟨kind_closed_ne_select h, hrest⟩
  | case5 current before begun t ns _ ih
  | case6 current before begun c ns ih
  | case7 current before begun n ns _ _ ih => exact ih h (List.forall_mem_cons.1 hnodes).2

/-- Among some clauses, the first one that selects is the one that `select` opens. -/
def SelectsFirst (select : Token) (behind : List Node) (clauses : List RawClause) : Prop :=
  ∃ fronts c cs, clauses = fronts ++ c :: cs ∧ (∀ d ∈ fronts, d.kind ≠ .select) ∧
    c.OpensAt select behind

/-- A clause that does not select may come in front. -/
lemma SelectsFirst.closed {select : Token} {behind : List Node} {clauses : List RawClause}
    (h : SelectsFirst select behind clauses) {current : RawClause}
    (hkind : current.kind ≠ .select) :
    SelectsFirst select behind (current.closed.toList ++ clauses) := by
  obtain ⟨fronts, c, cs, rfl, hfronts, hc⟩ := h
  exact ⟨current.closed.toList ++ fronts, c, cs, by rw [List.append_assoc],
    List.forall_mem_append.2 ⟨kind_closed_ne_select hkind, hfronts⟩, hc⟩

/-- The clause whose head has just been read. -/
lemma selectsFirst_next (current : RawClause) (select : Token) (words : List Token)
    (hwords : ∀ w ∈ words, w.spellsAny [.DISTINCT, .ALL] = true) (before : Option Token)
    (nodes : List Node) :
    SelectsFirst select (words.map .token ++ nodes)
      (clausesFrom (current.next .select (select :: words)) before true nodes) := by
  have hnext : (current.next .select (select :: words)).keywords ≠ [] := by simp [RawClause.next]
  obtain ⟨c, cs, taken, comments, rest, hc, hkind, hkeywords, rfl, hnodes, hcomments, hrest⟩ :=
    completes_clausesFrom hnext before true nodes
  have htaken : c.nodes ++ comments = taken := by simpa [RawClause.next] using hnodes
  exact ⟨[], c, cs, hc, by simp, hkind, words, comments, rest, hkeywords, hwords,
    by simp [← htaken], hcomments, hrest⟩

/-- A `SELECT` at hand closes the clause in front of it. -/
lemma selectsFirst_select {select : Token} (hselect : select.spells .SELECT = true)
    {current : RawClause} (hkind : current.kind ≠ .select) (before : Option Token) (begun : Bool)
    (behind : List Node) :
    SelectsFirst select behind (clausesFrom current before begun (.token select :: behind)) := by
  rw [clausesFrom, clauseHead?_select hselect]
  cases hdouble : behind.head?.any (·.spellsAny [.DISTINCT, .ALL]) with
  | false => exact (selectsFirst_next current select [] (by simp) _ behind).closed hkind
  | true =>
    obtain ⟨n, hn, hspells⟩ := (Option.any_eq_true _ _).1 hdouble
    obtain ⟨u, word, rfl, -, -⟩ := Node.exists_spells hspells
    obtain ⟨rest, rfl⟩ := List.head?_eq_some_iff.1 hn
    have hu : u.spellsAny [.DISTINCT, .ALL] = true := by
      simpa [Node.spellsAny, Node.token?] using hspells
    exact (selectsFirst_next current select [u] (by simpa using hu) _ rest).closed hkind

/-- **A `SELECT` opens a clause**, and if it is the first one, no clause of that kind comes before.
It is never the second word of a head. -/
lemma selectsFirst_clausesFrom {select : Token} (hselect : select.spells .SELECT = true)
    {current : RawClause} (hkind : current.kind ≠ .select) (before : Option Token) (begun : Bool)
    {front : List Node} (hfront : ∀ n ∈ front, n.spells .SELECT = false) (behind : List Node) :
    SelectsFirst select behind
      (clausesFrom current before begun (front ++ .token select :: behind)) := by
  induction hlength : front.length using Nat.strongRecOn
    generalizing front current before begun with
  | _ n ih =>
    subst hlength
    have hpush : ∀ n : Node, (current.push n).kind ≠ .select := fun _ => hkind
    -- another keyword starts a clause of another kind
    have hstart : ∀ {t : Token} {double : Bool} {after : Option Node} {kind : ClauseKind}
        (keywords : List Token) (before' : Option Token) (rest : List Node),
        clauseHead? t before begun after = some (kind, double) → t.spells .SELECT = false →
        rest.length < front.length → (∀ n ∈ rest, n.spells .SELECT = false) →
        SelectsFirst select behind (current.closed.toList ++
          clausesFrom (current.next kind keywords) before' true
            (rest ++ .token select :: behind)) := by
      intro t double after kind keywords before' rest hhead ht hlength hrest
      have hnext : (current.next kind keywords).kind ≠ .select :=
        kind_ne_select_of_clauseHead? hhead ht
      exact (ih rest.length hlength hnext before' true hrest rfl).closed hkind
    rcases front with _ | ⟨n, front⟩
    · exact selectsFirst_select hselect hkind before begun behind
    · obtain ⟨hn, hrest⟩ := List.forall_mem_cons.1 hfront
      cases n with
      | token t =>
        have ht : t.spells .SELECT = false := by simpa [Node.spells, Node.token?] using hn
        rw [List.cons_append, clausesFrom]
        cases hhead : clauseHead? t before begun (front ++ .token select :: behind).head? with
        | none => exact ih front.length (by simp) (hpush (.token t)) (some t) true hrest rfl
        | some found =>
          obtain ⟨kind, double⟩ := found
          cases double with
          | false => exact hstart [t] (some t) front hhead ht (by simp) hrest
          | true =>
            rcases front with _ | ⟨u, front⟩
            · have hsecond := (select_of_clauseHead? hhead).2 rfl (.token select) rfl
              simp only [Node.spells, Node.token?, Option.any_some, hselect] at hsecond
              cases hsecond
            · cases u with
              | token u =>
                have hshorter : front.length <
                    (Node.token t :: Node.token u :: front).length := by
                  simp only [List.length_cons]
                  omega
                exact hstart [t, u] (some u) front hhead ht hshorter
                  (List.forall_mem_cons.1 hrest).2
              | comment c =>
                exact hstart [t] (some t) (.comment c :: front) hhead ht (by simp) hrest
              | query o script c =>
                exact hstart [t] (some t) (.query o script c :: front) hhead ht (by simp) hrest
              | list o operands c =>
                exact hstart [t] (some t) (.list o operands c :: front) hhead ht (by simp) hrest
      | comment c =>
        rw [List.cons_append, clausesFrom]
        exact ih front.length (by simp) (hpush (.comment c)) before begun hrest rfl
      | query o script c =>
        rw [List.cons_append, clausesFrom]
        · exact ih front.length (by simp) (hpush (.query o script c)) none true hrest rfl
        all_goals simp
      | list o operands c =>
        rw [List.cons_append, clausesFrom]
        · exact ih front.length (by simp) (hpush (.list o operands c)) none true hrest rfl
        all_goals simp

/-! ## Statements -/

/-- The statement at hand comes first, with the nodes up to a semicolon. -/
lemma exists_statementsFrom (dialect : Dialect) (current : List Node) (h : current ≠ [])
    (nodes : List Node) :
    ∃ own rest terminated trailing statements, nodes = own ++ rest ∧
      (∀ n ∈ rest.head?, n.isKind .semicolon = true) ∧
      statementsFrom dialect current nodes =
        statementOf dialect (current ++ own) terminated trailing :: statements := by
  fun_induction statementsFrom dialect current nodes with
  | case1 current hempty => exact absurd (List.isEmpty_iff.1 hempty) h
  | case2 current => exact ⟨[], [], false, [], [], rfl, by simp, by rw [List.append_nil]⟩
  | case3 current n ns hsemicolon =>
    exact ⟨[], n :: ns, true, _, _, rfl, by simpa using hsemicolon, by rw [List.append_nil]⟩
  | case4 current n ns _ ih =>
    obtain ⟨own, rest, terminated, trailing, statements, rfl, hrest, hstatements⟩ := ih (by simp)
    exact ⟨n :: own, rest, terminated, trailing, statements, rfl, hrest, by
      rw [hstatements, List.append_assoc, List.singleton_append]⟩

/-- A semicolon ends a clause. -/
lemma endsClause_of_isKind {n : Node} (h : n.isKind .semicolon = true) : EndsClause n := by
  cases n with
  | token t => exact ⟨t, rfl, .inl (by simpa [Node.isKind, Node.token?] using h)⟩
  | comment c => simp [Node.isKind, Node.token?] at h
  | query o s c => simp [Node.isKind, Node.token?] at h
  | list o is c => simp [Node.isKind, Node.token?] at h

/-- The first clause of a script that selects. -/
def selectClause? (script : Script) : Option (Clause Node) :=
  (script.flatMap (·.clauses)).find? (·.kind == .select)

/-- A statement in front that does not select. -/
lemma selectClause?_cons {statement : Statement Node}
    (h : ∀ c ∈ statement.clauses, c.kind ≠ .select) (statements : Script) :
    selectClause? (statement :: statements) = selectClause? statements := by
  have hnone : statement.clauses.find? (·.kind == .select) = none :=
    List.find?_eq_none.2 fun c hc => by simpa using h c hc
  rw [selectClause?, List.flatMap_cons, List.find?_append, hnone, Option.none_or, selectClause?]

/-- **The first `SELECT` opens the first clause that selects.**  Statements and clauses in front of
it select nothing, and what is open when it comes is closed there. -/
lemma exists_selectClause?_statementsFrom (dialect : Dialect) {select : Token}
    (hselect : select.spells .SELECT = true) (current : List Node) {front : List Node}
    (hcurrent : ∀ n ∈ current, n.spells .SELECT = false)
    (hfront : ∀ n ∈ front, n.spells .SELECT = false) (behind : List Node) :
    ∃ c, selectClause? (statementsFrom dialect current (front ++ .token select :: behind)) =
      some (RawClause.finish dialect c) ∧ c.OpensAt select behind := by
  have hkind : select.kind = .keyword .SELECT := by simpa [Token.spells] using hselect
  have hpreamble : RawClause.preamble.kind ≠ .select := by simp [RawClause.preamble]
  induction hlength : front.length using Nat.strongRecOn generalizing front current with
  | _ n ih =>
    subst hlength
    rcases front with _ | ⟨n, front⟩
    · -- the statement of the keyword
      have hsemicolon : (Node.token select).isKind .semicolon = false := by
        simp [Node.isKind, Node.token?, hkind]
      obtain ⟨own, rest, terminated, trailing, statements, rfl, hrest, hstatements⟩ :=
        exists_statementsFrom dialect (current ++ [.token select]) (by simp) behind
      obtain ⟨fronts, c, clauses, hclauses, hfronts, hc⟩ :=
        selectsFirst_clausesFrom hselect hpreamble none false hcurrent own
      refine ⟨c, ?_, hc.append fun n hn => endsClause_of_isKind (hrest n hn)⟩
      rw [List.nil_append, statementsFrom, hsemicolon, if_neg (by simp), hstatements]
      have hall : (statementOf dialect (current ++ [.token select] ++ own) terminated
          trailing).clauses = fronts.map (·.finish dialect) ++
            (c.finish dialect :: clauses.map (·.finish dialect)) := by
        simp [statementOf, hclauses]
      have hnone : (fronts.map (·.finish dialect)).find? (·.kind == .select) = none := by
        refine List.find?_eq_none.2 (List.forall_mem_map.2 fun d hd => ?_)
        simpa [RawClause.finish] using hfronts d hd
      have hfound : ((c.finish dialect).kind == .select) = true := by
        simp [RawClause.finish, hc.kind]
      rw [selectClause?, List.flatMap_cons, hall, List.append_assoc, List.find?_append, hnone,
        Option.none_or, List.cons_append, List.find?_cons, hfound]
    · obtain ⟨hn, hrest⟩ := List.forall_mem_cons.1 hfront
      rw [List.cons_append, statementsFrom]
      split
      · -- a statement in front
        have hdrop : (front ++ .token select :: behind).dropWhile isInlineComment =
            front.dropWhile isInlineComment ++ .token select :: behind := by
          have hstop : isInlineComment (.token select) = false := rfl
          rw [List.dropWhile_append]
          split
          · rename_i hempty
            rw [List.isEmpty_iff.1 hempty, List.dropWhile_cons, hstop]
            rfl
          · rfl
        have hsub := List.dropWhile_sublist isInlineComment (l := front)
        rw [selectClause?_cons, hdrop]
        · exact ih _ (Nat.lt_succ_of_le hsub.length_le) [] (by simp)
            (fun n hn => hrest n (hsub.subset hn)) rfl
        · refine List.forall_mem_map.2 fun c hc => ?_
          exact kind_ne_select hpreamble none false hcurrent c hc
      · exact ih front.length (by simp) (current ++ [n])
          (List.forall_mem_append.2 ⟨hcurrent, by simpa using hn⟩) hrest rfl

/-! ## The clause -/

/-- **The clause that the first `SELECT` opens**, if the keyword stands outside parentheses.  What
has a meaning behind the keyword is the rest of the head, the items of the clause, and what comes
after it, which is no opening parenthesis. -/
lemma exists_selectClause {front list : List Token} {select : Token} {script : Script}
    (h : segment .native (front ++ select :: list) = .ok script)
    (hfront : ∀ t ∈ front, t.spells .SELECT = false) (hselect : select.spells .SELECT = true)
    (houtside : Balanced front) :
    ∃ clause words own nodes rest, selectClause? script = some clause ∧
      clause.keywords = select :: words ∧ clause.body = .items (splitCommas nodes) ∧
      (∀ w ∈ words, w.spellsAny [.DISTINCT, .ALL] = true) ∧ Folds .native own nodes ∧
      (∀ t ∈ own, t ∈ list) ∧ meaningful list = words ++ (meaningful own ++ rest) ∧
      ∀ t ∈ rest.head?, t.kind ≠ .openParen := by
  have hkind : select.kind = .keyword .SELECT := by simpa [Token.spells] using hselect
  rw [segment] at h
  cases hnodes : nestFrom .native true [] [] (front ++ select :: list) with
  | error failure =>
    rw [hnodes] at h
    cases h
  | ok nodes =>
    rw [hnodes] at h
    obtain rfl : statementsOf .native nodes = script := Except.ok.inj h
    obtain ⟨ns, ms, rfl, hns, hms⟩ := exists_folds hnodes houtside hkind
    obtain ⟨c, hclause, hc⟩ := exists_selectClause?_statementsFrom .native hselect []
      (by simp) (hns.spells_eq_false hfront) ms
    obtain ⟨hselects, words, comments, rest, hkeywords, hwords, rfl, hcomments, hrest⟩ := hc
    -- the nodes behind the keyword, each run with its tokens
    rw [← withoutTrailing_append c.nodes, List.append_assoc] at hms
    obtain ⟨head, list, rfl, hhead, hms⟩ := hms.exists_append
    obtain ⟨own, list, rfl, hown, hms⟩ := hms.exists_append
    obtain ⟨trailing, list, rfl, htrailing, hms⟩ := hms.exists_append
    obtain ⟨more, list, rfl, hmore, hms⟩ := hms.exists_append
    refine ⟨c.finish .native, words, own, withoutTrailing c.nodes, meaningful list, hclause,
      hkeywords, ?_, hwords, hown, by simp +contextual, ?_, fun t ht => ?_⟩
    · simp [RawClause.finish, hselects, splitItems, ClauseKind.isCommaList]
    · simp only [meaningful_append, hhead.meaningful_of_tokens,
        hmore.meaningful_of_comments hcomments, List.nil_append,
        htrailing.meaningful_of_comments fun n hn => isComment_of_mem_trailingComments hn]
    · have hends := hrest _ (hms.head?_meaningful (fun n hn => ?_) t ht)
      · obtain ⟨u, hu, hsemicolon | hword⟩ := hends
        · cases hu
          simp [hsemicolon]
        · cases hu
          intro hopen
          simp [Token.isClauseWord, Token.spellsAny, Token.spells, hopen] at hword
      · obtain ⟨u, hu, -⟩ := hrest n hn
        exact ⟨u, hu⟩

end SqlInlay.Sql
