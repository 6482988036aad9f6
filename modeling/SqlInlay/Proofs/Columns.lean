import SqlInlay.Projection
import SqlInlay.Proofs.Sql.SelectClause
import SqlInlay.Proofs.Sql.Stability

/-!
# The columns of a projection and the clause that selects them

Two readings of a query find the columns of its first `SELECT`.  Segmentation opens a clause at the
keyword and divides what belongs to it into items.  The aliases of a projection are found without
it, in the tokens up to the first `FROM` outside parentheses.  A getter for a column of another
query part is what comes of it where the two readings drift apart.

**Where the readings agree.**  Both take tokens from the keyword on, so one takes all that the other
takes, and maybe more.  If there is no `AS` in what only one of them takes, nor right in front of
it, the aliases of the projection are those of the items (`aliasesOf_select`): tokens without `AS`
add no alias to the column that they stand in, and columns of them have none.

**Where they do not.**  A clause may end in front of an alias that is a keyword, or in front of a
query part of its own, and `IS DISTINCT FROM` ends no clause (`not_aliasesOf_select`).

The steps:

* **Tokens of a clause.**  `tokensOf` forgets what layout needs of a token and keeps kind and text,
  so the items of a clause can be compared with tokens that were never segmented.
  `Folds.tokensOf_eq` is the step from nodes to tokens, for any depth of groups.
* **Columns.**  `columnsFrom_eq` turns the loop that counts parentheses into commas outside
  parentheses, which is how `splitCommas` divides a clause.
* **More tokens, same aliases.**  `DifferWithoutAs` relates two readings of which one goes on where
  the other ends; the aliases are the same for both.
-/

namespace SqlInlay.Sql

/-! ## The tokens of strokes -/

/-- The token with its place forgotten.  A flag has no place, so the tokens of a script can be
compared with those of its query only without theirs. -/
def Token.placeless (t : Token) : Token := { t with offset := 0 }

/-- The token that a stroke puts down, if it is no comment. -/
def Stroke.token? : Stroke → Option Token
  | .write t | .glue t => some t.placeless
  | .mark kind text => some ⟨kind, text, 0⟩
  | .comment _ => none

/-- The tokens that strokes put down. -/
def tokensOf (ss : List Stroke) : List Token := ss.filterMap Stroke.token?

@[simp] lemma tokensOf_append (ss rs : List Stroke) :
    tokensOf (ss ++ rs) = tokensOf ss ++ tokensOf rs := List.filterMap_append ..

lemma tokensOf_write (ts : List Token) : tokensOf (ts.map .write) = ts.map Token.placeless := by
  simp [tokensOf, List.filterMap_map, Function.comp_def, Stroke.token?]

/-- Settled strokes put down the same tokens. -/
lemma Settled.tokensOf_eq {ss rs : List Stroke} (h : Settled ss rs) :
    tokensOf ss = tokensOf rs := by
  have hstep : ∀ {s r : Stroke}, Settles s r → s.token? = r.token? := by
    rintro s r (_ | _ | _) <;> rfl
  induction h with
  | nil => rfl
  | cons h _ ih => simp only [tokensOf, List.filterMap_cons, hstep h] at ih ⊢; rw [ih]

/-- Folded nodes put down the tokens that they come from, those with a meaning.  A group divides its
operands into items on the way, but items put down the strokes of their nodes, with the commas in
between. -/
lemma Folds.tokensOf_eq {dialect : Dialect} {ts : List Token} {ns : List Node}
    (h : Folds dialect ts ns) (hts : ∀ t ∈ ts, t.isComment = false → t.Sound) :
    NodesSound ns ∧ tokensOf (nodesStrokes ns) = (meaningful ts).map Token.placeless := by
  induction h with
  | nil => exact ⟨trivial, rfl⟩
  | blank hblank _ ih =>
    rw [meaningful_cons_of_isTrivia (isTrivia_of_blank hblank)]
    exact ih (List.forall_mem_cons.1 hts).2
  | comment hcomment fresh _ ih =>
    rw [meaningful_cons_of_isTrivia (isTrivia_of_isComment hcomment)]
    obtain ⟨hsound, htokens⟩ := ih (List.forall_mem_cons.1 hts).2
    exact ⟨⟨hcomment, hsound⟩, htokens⟩
  | token _ _ htrivia _ ih =>
    obtain ⟨ht, hts⟩ := List.forall_mem_cons.1 hts
    obtain ⟨hsound, htokens⟩ := ih hts
    have hcode := (Bool.or_eq_false_iff.1 htrivia).2
    rw [meaningful_cons htrivia, List.map_cons, ← htokens]
    exact ⟨⟨ht hcode, hsound⟩, rfl⟩
  | @group opening closing inner ts inside ns hopen hclose _ _ ihinner ihts =>
    simp only [List.forall_mem_cons, List.forall_mem_append] at hts
    obtain ⟨-, hinner, -, hts⟩ := hts
    obtain ⟨hinside, hinsideTokens⟩ := ihinner hinner
    obtain ⟨hsound, htokens⟩ := ihts hts
    obtain ⟨hgroup, hsettled⟩ := divide_groupOf dialect hopen hclose hinside
    refine ⟨⟨hgroup, hsound⟩, ?_⟩
    rw [nodesStrokes, tokensOf_append, ← hsettled.tokensOf_eq, htokens,
      meaningful_cons (isTrivia_of_kind (.inl hopen)), meaningful_append,
      meaningful_cons (isTrivia_of_kind (.inr hclose))]
    simp only [List.map_cons, List.map_append, ← hinsideTokens]
    simp [tokensOf, Stroke.token?]

end SqlInlay.Sql

namespace SqlInlay.Projection

open SqlInlay.Sql

/-- What the first element of a list gives, in front of what the others give. -/
lemma filterMap_cons_eq {α β : Type} (f : α → Option β) (a : α) (l : List α) :
    (a :: l).filterMap f = (f a).toList ++ l.filterMap f := by
  rw [List.filterMap_cons]
  cases f a <;> rfl

/-! ## Names and aliases -/

/-- Tokens without `AS` give no names. -/
lemma namesIn_eq_nil {ts : List Token} (h : ∀ t ∈ ts, t.spells .AS = false) : namesIn ts = [] := by
  fun_induction namesIn ts with
  | case1 as name rest ih =>
    obtain ⟨has, hrest⟩ := List.forall_mem_cons.1 h
    simp [has, ih hrest]
  | case2 => rfl

/-- A token other than `AS` gives no name to what stands behind it. -/
lemma namesIn_cons {t : Token} (h : t.spells .AS = false) (ts : List Token) :
    namesIn (t :: ts) = namesIn ts := by
  cases ts with
  | nil => rfl
  | cons u us => simp [namesIn, h]

/-- Tokens without `AS` behind a column that does not end in it give no names. -/
lemma namesIn_append {column more : List Token}
    (hlast : ∀ t ∈ column.getLast?, t.spells .AS = false)
    (hmore : ∀ t ∈ more, t.spells .AS = false) (hhead : ∀ t ∈ more.head?, t.kind ≠ .openParen) :
    namesIn (column ++ more) = namesIn column := by
  fun_induction namesIn column with
  | case1 as name rest ih =>
    have hopen : (rest ++ more).head?.any (·.kind == .openParen) =
        rest.head?.any (·.kind == .openParen) := by
      rcases rest with _ | ⟨u, us⟩
      · rcases more with _ | ⟨v, vs⟩
        · rfl
        · simpa using hhead
      · rfl
    rw [List.getLast?_cons_cons] at hlast
    simp only [List.cons_append, namesIn, hopen] at ih ⊢
    rw [ih hlast]
  | case2 column hshort =>
    rcases column with _ | ⟨t, _ | ⟨u, us⟩⟩
    · exact namesIn_eq_nil hmore
    · rw [List.singleton_append, namesIn_cons (hlast t rfl), namesIn_eq_nil hmore]
    · exact absurd rfl (hshort t u us)

/-- Names do not depend on places. -/
lemma namesIn_placeless (ts : List Token) : namesIn (ts.map Token.placeless) = namesIn ts := by
  have hspells : ∀ (t : Token) (word : Keyword), t.placeless.spells word = t.spells word :=
    fun _ _ => rfl
  have htext : ∀ t : Token, aliasText? t.placeless = aliasText? t := fun _ => rfl
  fun_induction namesIn ts with
  | case1 as name rest ih =>
    have hopen : (rest.map Token.placeless).head?.any (·.kind == .openParen) =
        rest.head?.any (·.kind == .openParen) := by cases rest <;> rfl
    simp only [List.map_cons, namesIn, hspells, htext, hopen] at ih ⊢
    rw [ih]
  | case2 ts hshort =>
    rcases ts with _ | ⟨t, _ | ⟨u, us⟩⟩
    · rfl
    · rfl
    · exact absurd rfl (hshort t u us)

/-! ## Columns -/

/-- How many parentheses are open behind a token. -/
def depthBehind (depth : Nat) (t : Token) : Nat :=
  match t.kind with
  | .openParen => depth + 1
  | .closeParen => depth - 1
  | _ => depth

/-- Tokens divided at the commas outside parentheses. -/
def columnsIn (depth : Nat) (current : List Token) : List Token → List (List Token)
  | [] => [current]
  | t :: ts =>
    if t.kind = .comma ∧ depth = 0 then current :: columnsIn 0 [] ts
    else columnsIn (depthBehind depth t) (current ++ [t]) ts

/-- The tokens up to the first `FROM` outside parentheses, or all of them.  What stands behind plays
no part for a projection. -/
def upToFrom (depth : Nat) : List Token → List Token
  | [] => []
  | t :: ts =>
    if t.spells .FROM ∧ depth = 0 then [] else t :: upToFrom (depthBehind depth t) ts

/-- The columns of a list are the columns of what stands in front of `FROM`. -/
lemma columnsFrom_eq (depth : Nat) (current ts : List Token) :
    columnsFrom depth current ts = columnsIn depth current (upToFrom depth ts) := by
  fun_induction columnsFrom depth current ts with
  | case1 => rfl
  | case2 depth current t ts hkind ih
  | case3 depth current t ts hkind ih
  | case4 current t ts hkind ih =>
    simp [upToFrom, columnsIn, depthBehind, Token.spells, hkind, ih]
  | case6 current t ts hkind => simp [upToFrom, columnsIn, Token.spells, hkind]
  | case5 depth current t ts hkind hdepth ih
  | case7 depth current t ts hkind hdepth ih =>
    simp [upToFrom, columnsIn, depthBehind, Token.spells, hkind, hdepth, ih]
  | case8 depth current t ts hopen hclose hcomma hfrom ih =>
    have hspells : t.spells .FROM = false := by simpa [Token.spells] using hfrom
    have hcomma : t.kind ≠ .comma := hcomma
    simp [upToFrom, columnsIn, depthBehind, hspells, hcomma, ih]

/-- What stands in front of `FROM` is an opening of the list. -/
lemma exists_upToFrom (depth : Nat) (ts : List Token) :
    ∃ rest, ts = upToFrom depth ts ++ rest ∧ ∀ t ∈ rest.head?, t.kind ≠ .openParen := by
  fun_induction upToFrom depth ts with
  | case1 => exact ⟨[], rfl, by simp⟩
  | case2 depth t ts h =>
    refine ⟨t :: ts, rfl, fun u hu => ?_⟩
    obtain rfl : t = u := Option.some.inj hu
    have hkind : t.kind = .keyword .FROM := by simpa [Token.spells] using h.1
    simp [hkind]
  | case3 depth t ts h ih =>
    obtain ⟨rest, hrest, hhead⟩ := ih
    exact ⟨rest, by rw [List.cons_append, ← hrest], hhead⟩

/-- The aliases of the columns of some tokens. -/
def aliasesIn (depth : Nat) (current ts : List Token) : List Text :=
  (columnsIn depth current ts).filterMap columnAlias?

lemma aliasesIn_nil (depth : Nat) (current : List Token) :
    aliasesIn depth current [] = (columnAlias? current).toList := by
  rw [aliasesIn, columnsIn, filterMap_cons_eq, List.filterMap_nil, List.append_nil]

/-- A comma outside parentheses ends a column. -/
lemma aliasesIn_comma {t : Token} (h : t.kind = .comma) (current ts : List Token) :
    aliasesIn 0 current (t :: ts) = (columnAlias? current).toList ++ aliasesIn 0 [] ts := by
  rw [aliasesIn, columnsIn, if_pos ⟨h, rfl⟩, filterMap_cons_eq, aliasesIn]

/-- Any other token stands in the column at hand. -/
lemma aliasesIn_inside {depth : Nat} {t : Token} (h : ¬ (t.kind = .comma ∧ depth = 0))
    (current ts : List Token) :
    aliasesIn depth current (t :: ts) = aliasesIn (depthBehind depth t) (current ++ [t]) ts := by
  rw [aliasesIn, columnsIn, if_neg h, aliasesIn]

/-- Tokens without `AS` have no aliases. -/
lemma aliasesIn_eq_nil (depth : Nat) {current ts : List Token}
    (hcurrent : ∀ t ∈ current, t.spells .AS = false) (hts : ∀ t ∈ ts, t.spells .AS = false) :
    aliasesIn depth current ts = [] := by
  induction ts generalizing depth current with
  | nil => rw [aliasesIn_nil, columnAlias?, namesIn_eq_nil hcurrent]; rfl
  | cons t ts ih =>
    obtain ⟨ht, hts⟩ := List.forall_mem_cons.1 hts
    by_cases hcut : t.kind = .comma ∧ depth = 0
    · obtain ⟨hcomma, rfl⟩ := hcut
      rw [aliasesIn_comma hcomma, columnAlias?, namesIn_eq_nil hcurrent, ih 0 (by simp) hts]
      rfl
    · rw [aliasesIn_inside hcut]
      exact ih _ (List.forall_mem_append.2 ⟨hcurrent, by simpa using ht⟩) hts

/-- Tokens without `AS` behind a column leave its alias.  The column goes on with them, and nothing
in them names anything; behind a comma there are further columns, and these have no alias. -/
lemma aliasesIn_behind (depth : Nat) {column : List Token} (more : List Token) {ts : List Token}
    (hlast : ∀ t ∈ column.getLast?, t.spells .AS = false)
    (hmore : ∀ t ∈ more ++ ts, t.spells .AS = false)
    (hhead : ∀ t ∈ (more ++ ts).head?, t.kind ≠ .openParen) :
    aliasesIn depth (column ++ more) ts = (columnAlias? column).toList := by
  -- what has been read of the tokens leaves the alias as it was
  have halias : ∀ {more ts : List Token}, (∀ t ∈ more ++ ts, t.spells .AS = false) →
      (∀ t ∈ (more ++ ts).head?, t.kind ≠ .openParen) →
      columnAlias? (column ++ more) = columnAlias? column := by
    intro more ts hmore hhead
    refine congrArg List.getLast? (namesIn_append hlast
      (fun t ht => hmore t (List.mem_append_left _ ht)) fun t ht => hhead t ?_)
    rw [List.head?_append, Option.mem_def.1 ht]
    rfl
  induction ts generalizing depth more with
  | nil => rw [aliasesIn_nil, halias hmore hhead]
  | cons t ts ih =>
    by_cases hcut : t.kind = .comma ∧ depth = 0
    · obtain ⟨hcomma, rfl⟩ := hcut
      have hnone : aliasesIn 0 [] ts = [] :=
        aliasesIn_eq_nil 0 (by simp) fun u hu => hmore u (by simp [hu])
      rw [aliasesIn_comma hcomma, halias hmore hhead, hnone, List.append_nil]
    · rw [aliasesIn_inside hcut, List.append_assoc]
      rw [List.append_cons] at hmore hhead
      exact ih _ _ hmore hhead

/-- **Tokens without `AS` add no alias**, if they do not stand behind one and do not open with a
parenthesis. -/
lemma aliasesIn_append (depth : Nat) {column ts more : List Token}
    (hlast : ∀ t ∈ (column ++ ts).getLast?, t.spells .AS = false)
    (hmore : ∀ t ∈ more, t.spells .AS = false) (hhead : ∀ t ∈ more.head?, t.kind ≠ .openParen) :
    aliasesIn depth column (ts ++ more) = aliasesIn depth column ts := by
  induction ts generalizing depth column with
  | nil =>
    have hbehind := aliasesIn_behind depth [] (by simpa using hlast) hmore hhead
    rwa [List.append_nil, ← aliasesIn_nil depth] at hbehind
  | cons t ts ih =>
    rw [List.cons_append]
    by_cases hcut : t.kind = .comma ∧ depth = 0
    · obtain ⟨hcomma, rfl⟩ := hcut
      rw [aliasesIn_comma hcomma, aliasesIn_comma hcomma, ih]
      intro u hu
      refine hlast u ?_
      rw [List.nil_append] at hu
      rw [List.getLast?_append, List.getLast?_cons, hu]
      rfl
    · rw [aliasesIn_inside hcut, aliasesIn_inside hcut, ih]
      rwa [List.append_assoc]

/-- A token other than `AS` in front of a column leaves its alias. -/
lemma aliasesIn_cons {w : Token} (hw : w.spells .AS = false) (depth : Nat)
    (column ts : List Token) : aliasesIn depth (w :: column) ts = aliasesIn depth column ts := by
  have halias : ∀ column, columnAlias? (w :: column) = columnAlias? column :=
    fun column => congrArg List.getLast? (namesIn_cons hw column)
  induction ts generalizing depth column with
  | nil => rw [aliasesIn_nil, aliasesIn_nil, halias]
  | cons t ts ih =>
    by_cases hcut : t.kind = .comma ∧ depth = 0
    · obtain ⟨hcomma, rfl⟩ := hcut
      rw [aliasesIn_comma hcomma, aliasesIn_comma hcomma, halias]
    · rw [aliasesIn_inside hcut, aliasesIn_inside hcut, List.cons_append, ih]

/-- The rest of the head of a clause adds no alias to the first column. -/
lemma aliasesIn_words {words : List Token}
    (h : ∀ w ∈ words, w.spellsAny [.DISTINCT, .ALL] = true) (ts : List Token) :
    aliasesIn 0 [] (words ++ ts) = aliasesIn 0 [] ts := by
  induction words with
  | nil => rfl
  | cons w words ih =>
    obtain ⟨hw, hwords⟩ := List.forall_mem_cons.1 h
    have hkind : w.kind = .keyword .DISTINCT ∨ w.kind = .keyword .ALL := by
      simpa [Token.spellsAny, Token.spells] using hw
    have has : w.spells .AS = false := by rcases hkind with h | h <;> simp [Token.spells, h]
    have hcomma : w.kind ≠ .comma := by rcases hkind with h | h <;> simp [h]
    have hdepth : depthBehind 0 w = 0 := by rcases hkind with h | h <;> simp [depthBehind, h]
    rw [List.cons_append, aliasesIn_inside (fun h => hcomma h.1), hdepth, List.nil_append,
      aliasesIn_cons has, ih hwords]

/-! ## Items -/

/-- The alias of an item: that of its tokens, those in its groups among them. -/
def itemAlias? (i : Item Node) : Option Text := columnAlias? (tokensOf (nodesStrokes i.nodes))

/-- A balanced run inside parentheses stays in its column: at its end the depth is what it was, and
no comma in it is at depth zero. -/
lemma aliasesIn_folds {dialect : Dialect} {inner : List Token} {ns : List Node}
    (h : Folds dialect inner ns) (depth : Nat) (column rest : List Token) :
    aliasesIn (depth + 1) column (meaningful inner ++ rest) =
      aliasesIn (depth + 1) (column ++ meaningful inner) rest := by
  induction h generalizing depth column rest with
  | nil => simp [meaningful]
  | blank hblank _ ih =>
    rw [meaningful_cons_of_isTrivia (isTrivia_of_blank hblank), ih]
  | comment hcomment _ _ ih =>
    rw [meaningful_cons_of_isTrivia (isTrivia_of_isComment hcomment), ih]
  | @token t ts ns hopen hclose htrivia _ ih =>
    have hdepth : depthBehind (depth + 1) t = depth + 1 := by
      unfold depthBehind
      split <;> simp_all
    rw [meaningful_cons htrivia, List.cons_append, aliasesIn_inside (by simp), hdepth, ih,
      List.append_assoc, List.singleton_append]
  | @group opening closing inner ts inside ns hopen hclose _ _ ihinner ihts =>
    have hin : depthBehind (depth + 1) opening = depth + 1 + 1 := by simp [depthBehind, hopen]
    have hout : depthBehind (depth + 1 + 1) closing = depth + 1 := by simp [depthBehind, hclose]
    rw [meaningful_cons (isTrivia_of_kind (.inl hopen)), meaningful_append,
      meaningful_cons (isTrivia_of_kind (.inr hclose)), List.cons_append,
      aliasesIn_inside (by simp), hin, List.append_assoc, ihinner, List.cons_append,
      aliasesIn_inside (by simp), hout, ihts]
    simp

/-- A node that is no comma goes to the item at hand. -/
lemma itemsFrom_commaCuts_cons (current : List Node) {n : Node} (hn : n.isKind .comma = false)
    (ns : List Node) :
    itemsFrom current (commaCuts (n :: ns)) = itemsFrom (current ++ [n]) (commaCuts ns) := by
  simp [commaCuts, itemsFrom, hn]

/-- A comma ends the item at hand. -/
lemma itemsFrom_commaCuts_comma (current : List Node) {n : Node} (hn : n.isKind .comma = true)
    (ns : List Node) :
    itemsFrom current (commaCuts (n :: ns)) = ⟨current, true⟩ :: itemsFrom [] (commaCuts ns) := by
  simp [commaCuts, itemsFrom, hn]

/-- The nodes of an item are those of a column: they put down the same tokens.  Nodes may be groups,
and columns have none. -/
def IsColumn (nodes : List Node) (column : List Token) : Prop :=
  tokensOf (nodesStrokes nodes) = column.map Token.placeless

namespace IsColumn

variable {nodes : List Node} {column : List Token}

lemma nil : IsColumn [] [] := rfl

lemma push (h : IsColumn nodes column) (n : Node) (ts : List Token)
    (hn : tokensOf n.strokes = ts.map Token.placeless) :
    IsColumn (nodes ++ [n]) (column ++ ts) := by
  simp only [IsColumn] at h
  simp [IsColumn, h, hn, nodesStrokes]

/-- The alias does not hang on where the tokens stand. -/
lemma columnAlias?_eq (h : IsColumn nodes column) :
    columnAlias? (tokensOf (nodesStrokes nodes)) = columnAlias? column := by
  rw [h, columnAlias?, namesIn_placeless, columnAlias?]

end IsColumn

/-- A group puts down its tokens with its parentheses around them. -/
lemma tokensOf_groupOf {dialect : Dialect} {opening closing : Token} {inner : List Token}
    {inside : List Node} (hopen : opening.kind = .openParen) (hclose : closing.kind = .closeParen)
    (hinner : Folds dialect inner inside) (hsound : ∀ t ∈ inner, t.isComment = false → t.Sound) :
    tokensOf (groupOf dialect opening inside closing).strokes =
      (opening :: (meaningful inner ++ [closing])).map Token.placeless := by
  obtain ⟨hinside, htokens⟩ := hinner.tokensOf_eq hsound
  rw [← (divide_groupOf dialect hopen hclose hinside).2.tokensOf_eq]
  simp [tokensOf, Stroke.token?, ← htokens]

/-- **Items are columns.**  The items that commas cut out of nodes have the aliases of the columns
of the tokens that the nodes come from. -/
lemma aliases_itemsFrom {dialect : Dialect} {own : List Token} {nodes : List Node}
    (h : Folds dialect own nodes) (hown : ∀ t ∈ own, t.isComment = false → t.Sound)
    (current : List Node) (column : List Token) (hcurrent : IsColumn current column) :
    (itemsFrom current (commaCuts nodes)).filterMap itemAlias? =
      aliasesIn 0 column (meaningful own) := by
  induction h generalizing current column with
  | nil =>
    rw [show meaningful [] = [] from rfl, aliasesIn_nil, ← hcurrent.columnAlias?_eq]
    rcases current with _ | ⟨n, ns⟩
    · rfl
    · exact (filterMap_cons_eq itemAlias? ⟨n :: ns, false⟩ []).trans (List.append_nil _)
  | blank hblank _ ih =>
    rw [meaningful_cons_of_isTrivia (isTrivia_of_blank hblank)]
    exact ih (List.forall_mem_cons.1 hown).2 current column hcurrent
  | @comment t ts ns hcomment fresh _ ih =>
    rw [meaningful_cons_of_isTrivia (isTrivia_of_isComment hcomment),
      itemsFrom_commaCuts_cons _ rfl]
    refine ih (List.forall_mem_cons.1 hown).2 _ column ?_
    simpa using hcurrent.push (.comment ⟨t, fresh⟩) [] rfl
  | @token t ts ns hopen hclose htrivia _ ih =>
    obtain ⟨-, hown⟩ := List.forall_mem_cons.1 hown
    have hdepth : depthBehind 0 t = 0 := by
      unfold depthBehind
      split <;> simp_all
    rw [meaningful_cons htrivia]
    by_cases hcomma : t.kind = .comma
    · rw [itemsFrom_commaCuts_comma _ (by simp [Node.isKind, Node.token?, hcomma]),
        aliasesIn_comma hcomma, ← ih hown [] [] .nil, ← hcurrent.columnAlias?_eq,
        filterMap_cons_eq, itemAlias?]
    · rw [itemsFrom_commaCuts_cons _ (by simp [Node.isKind, Node.token?, hcomma]),
        aliasesIn_inside fun h => hcomma h.1, hdepth]
      exact ih hown _ _ (hcurrent.push (.token t) [t] rfl)
  | @group opening closing inner ts inside ns hopen hclose hinner _ _ ihts =>
    simp only [List.forall_mem_cons, List.forall_mem_append] at hown
    obtain ⟨-, hsound, -, hown⟩ := hown
    have hkind : (groupOf dialect opening inside closing).isKind .comma = false := by
      unfold groupOf
      split <;> rfl
    have hin : depthBehind 0 opening = 0 + 1 := by simp [depthBehind, hopen]
    have hout : depthBehind (0 + 1) closing = 0 := by simp [depthBehind, hclose]
    rw [itemsFrom_commaCuts_cons _ hkind,
      ihts hown _ _ (hcurrent.push _ _ (tokensOf_groupOf hopen hclose hinner hsound)),
      meaningful_cons (isTrivia_of_kind (.inl hopen)), meaningful_append,
      meaningful_cons (isTrivia_of_kind (.inr hclose)), aliasesIn_inside (by simp [hopen]), hin,
      aliasesIn_folds hinner, aliasesIn_inside (by simp), hout]
    simp

/-! ## The two readings -/

/-- The tokens of a clause behind its first keyword, those in groups among them. -/
def clauseTokens (c : Clause Node) : List Token :=
  tokensOf (c.keywords.tail.map .write ++ bodyStrokes c.body)

/-- The aliases of the items of a clause, in their order and each one once. -/
def clauseAliases (c : Clause Node) : List Text :=
  match c.body with
  | .items items => (items.filterMap itemAlias?).eraseDups
  | .construction _ => []

/-- If one of two openings of a list is longer, there is no `AS` in what it has more, nor right in
front of that. -/
def DifferWithoutAs (ts us : List Token) : Prop :=
  ts.length = us.length ∨
    ∀ t ∈ ts.drop (us.length - 1) ++ us.drop (ts.length - 1), t.spells .AS = false

instance (ts us : List Token) : Decidable (DifferWithoutAs ts us) :=
  inferInstanceAs (Decidable (_ ∨ _))

lemma differWithoutAs_placeless {ts us : List Token} :
    DifferWithoutAs ts (us.map Token.placeless) ↔ DifferWithoutAs ts us := by
  have hspells : ∀ (t : Token) (word : Keyword), t.placeless.spells word = t.spells word :=
    fun _ _ => rfl
  simp only [DifferWithoutAs, List.length_map, ← List.map_drop, List.forall_mem_append,
    List.forall_mem_map, hspells]

lemma DifferWithoutAs.symm {ts us : List Token} (h : DifferWithoutAs ts us) :
    DifferWithoutAs us ts := by
  rcases h with hlength | hquiet
  · exact .inl hlength.symm
  · exact .inr fun t ht => hquiet t (List.mem_append.2 (List.mem_append.1 ht).symm)

/-- What an opening has more adds no alias. -/
lemma aliasesIn_longer {ts more : List Token} (h : DifferWithoutAs (ts ++ more) ts)
    (hhead : ∀ t ∈ more.head?, t.kind ≠ .openParen) :
    aliasesIn 0 [] (ts ++ more) = aliasesIn 0 [] ts := by
  rcases h with hlength | hquiet
  · rw [List.length_append, Nat.add_eq_left, List.length_eq_zero_iff] at hlength
    rw [hlength, List.append_nil]
  · have hdrop : ∀ t ∈ ts.drop (ts.length - 1) ++ more, t.spells .AS = false := by
      intro t ht
      refine hquiet t (List.mem_append_left _ ?_)
      rwa [List.drop_append_of_le_length (Nat.sub_le ..)]
    refine aliasesIn_append 0 (fun t ht => hdrop t (List.mem_append_left _ ?_))
      (fun t ht => hdrop t (List.mem_append_right _ ht)) hhead
    rcases List.eq_nil_or_concat ts with rfl | ⟨front, u, rfl⟩
    · cases ht
    · obtain rfl : u = t := by simpa using ht
      simp

lemma afterSelect?_append {front : List Token} {select : Token}
    (hfront : ∀ t ∈ front, t.spells .SELECT = false) (hselect : select.spells .SELECT = true)
    (list : List Token) : afterSelect? (front ++ select :: list) = some list := by
  induction front with
  | nil => simp [afterSelect?, hselect]
  | cons t front ih =>
    obtain ⟨ht, hfront⟩ := List.forall_mem_cons.1 hfront
    simp [afterSelect?, ht, ih hfront]

/-- **The aliases of a projection and the clause that selects them.**  Where the first `SELECT` of a
query stands outside parentheses, it opens the first clause that selects.  The tokens of the clause
are an opening of what stands behind the keyword, and so are those in front of the first `FROM`
outside parentheses.  If there is no `AS` in what one of the two has more, nor right in front of
that, the projection has the aliases of the items of the clause, and it is refused if there are
none. -/
theorem aliasesOf_select {query : Text} {front list : List Token} {select : Token}
    {script : Script} (htokens : tokenize query = .ok (front ++ select :: list))
    (hscript : parse query .native = .ok script)
    (hfront : ∀ t ∈ front, t.spells .SELECT = false) (hselect : select.spells .SELECT = true)
    (houtside : Balanced front) :
    ∃ clause items, selectClause? script = some clause ∧ clause.keywords.head? = some select ∧
      clause.body = .items items ∧ clauseTokens clause <+: (meaningful list).map Token.placeless ∧
      (DifferWithoutAs (upToFrom 0 (meaningful list)) (clauseTokens clause) →
        aliasesOf query = if clauseAliases clause = [] then .error (.projection .noAlias)
          else .ok (clauseAliases clause)) := by
  have hsegment : segment .native (front ++ select :: list) = .ok script := by
    rw [parse, htokens] at hscript
    exact hscript
  have hsound : ∀ t ∈ list, t.isComment = false → t.Sound := fun t ht =>
    sound_of_tokenize htokens t (List.mem_append_right _ (List.mem_cons_of_mem _ ht))
  obtain ⟨clause, words, own, nodes, rest, hclause, hkeywords, hbody, hwords, hown, hmem, hlist,
    hrest⟩ := exists_selectClause hsegment hfront hselect houtside
  have hownSound : ∀ t ∈ own, t.isComment = false → t.Sound := fun t ht => hsound t (hmem t ht)
  obtain ⟨hnodes, hnodesTokens⟩ := hown.tokensOf_eq hownSound
  rw [← List.append_assoc] at hlist
  have htaken : clauseTokens clause = (words ++ meaningful own).map Token.placeless := by
    rw [clauseTokens, hkeywords, hbody, bodyStrokes, tokensOf_append, List.tail_cons,
      tokensOf_write, ← (divide_splitCommas hnodes).2.tokensOf_eq, hnodesTokens, List.map_append]
  refine ⟨clause, splitCommas nodes, hclause, by rw [hkeywords]; rfl, hbody, ?_, fun hdiffer => ?_⟩
  · exact ⟨rest.map Token.placeless, by rw [htaken, hlist, ← List.map_append]⟩
  · rw [htaken, differWithoutAs_placeless] at hdiffer
    -- the aliases of the clause are those of its tokens
    have hitems : clauseAliases clause =
        (aliasesIn 0 [] (words ++ meaningful own)).eraseDups := by
      rw [clauseAliases, hbody, aliasesIn_words hwords,
        ← aliases_itemsFrom hown hownSound [] [] rfl]
      rfl
    -- one of the two readings takes all that the other takes
    have hagree : aliasesIn 0 [] (upToFrom 0 (meaningful list)) =
        aliasesIn 0 [] (words ++ meaningful own) := by
      obtain ⟨back, hback, hhead⟩ := exists_upToFrom 0 (meaningful list)
      rcases List.append_eq_append_iff.1 (hback.symm.trans hlist) with
        ⟨more, hmore, hsplit⟩ | ⟨more, hmore, hsplit⟩
      · rw [hmore] at hdiffer ⊢
        refine (aliasesIn_longer hdiffer.symm fun t ht => hhead t ?_).symm
        rw [hsplit, List.head?_append, Option.mem_def.1 ht]
        rfl
      · rw [hmore] at hdiffer ⊢
        refine aliasesIn_longer hdiffer fun t ht => hrest t ?_
        rw [hsplit, List.head?_append, Option.mem_def.1 ht]
        rfl
    have hafter : afterSelect? ((front ++ select :: list).filter (!·.isTrivia)) =
        some (meaningful list) := by
      have hkind : select.kind = .keyword .SELECT := by simpa [Token.spells] using hselect
      have htrivia : select.isTrivia = false := by simp [Token.isTrivia, Token.isComment, hkind]
      rw [← meaningful, meaningful_append, meaningful_cons htrivia]
      exact afterSelect?_append (fun t ht => hfront t (List.mem_filter.1 ht).1) hselect _
    rw [aliasesOf, htokens]
    simp only [bind, Except.bind, hafter, columnsFrom_eq]
    rw [← aliasesIn, hagree, ← hitems]
    cases clauseAliases clause <;> rfl

/-- A clause that ends in front of `WHERE`, where the projection reads on to `FROM`. -/
theorem aliasesOf_select_where :
    ∃ script clause, parse "select a as b where c is distinct from d" .native = .ok script ∧
      selectClause? script = some clause ∧ clauseAliases clause = ["b".toList] ∧
      aliasesOf "select a as b where c is distinct from d" = .ok (clauseAliases clause) := by
  have htokens : tokenize "select a as b where c is distinct from d" = .ok ([] ++
      ⟨.keyword .SELECT, "select", 0⟩ :: [⟨.blank, " ", 6⟩, ⟨.identifier, "a", 7⟩, ⟨.blank, " ", 8⟩,
        ⟨.keyword .AS, "as", 9⟩, ⟨.blank, " ", 11⟩, ⟨.identifier, "b", 12⟩, ⟨.blank, " ", 13⟩,
        ⟨.keyword .WHERE, "where", 14⟩, ⟨.blank, " ", 19⟩, ⟨.identifier, "c", 20⟩,
        ⟨.blank, " ", 21⟩, ⟨.keyword .IS, "is", 22⟩, ⟨.blank, " ", 24⟩,
        ⟨.keyword .DISTINCT, "distinct", 25⟩, ⟨.blank, " ", 33⟩, ⟨.keyword .FROM, "from", 34⟩,
        ⟨.blank, " ", 38⟩, ⟨.identifier, "d", 39⟩]) := by decide +kernel
  have hitems : (parse "select a as b where c is distinct from d" .native).map
      (selectClause? · |>.map fun clause => (clauseTokens clause, clauseAliases clause)) =
        .ok (some ([⟨.identifier, "a", 0⟩, ⟨.keyword .AS, "as", 0⟩, ⟨.identifier, "b", 0⟩],
          ["b".toList])) := by decide +kernel
  cases hscript : parse "select a as b where c is distinct from d" .native with
  | error failure =>
    rw [hscript] at hitems
    cases hitems
  | ok script =>
    obtain ⟨clause, items, hclause, -, -, -, halias⟩ :=
      aliasesOf_select htokens hscript (by simp) rfl .nil
    rw [hscript, Except.map, hclause, Option.map_some, Except.ok.injEq, Option.some.injEq,
      Prod.mk.injEq] at hitems
    obtain ⟨htaken, hb⟩ := hitems
    have haliases := halias (by rw [htaken]; decide)
    rw [hb, if_neg (by simp), ← hb] at haliases
    exact ⟨script, clause, rfl, hclause, hb, haliases⟩

/-- **The two readings may find other aliases**: a keyword that opens a clause where it is meant as
an alias, a query part of its own, and a comparison whose `FROM` opens no clause. -/
theorem not_aliasesOf_select :
    ((tokenize "select a as offset from t").map (·.head?.map Token.kind),
        (parse "select a as offset from t" .native).map (selectClause? · |>.map clauseAliases),
        aliasesOf "select a as offset from t") =
      (.ok (some (.keyword .SELECT)), .ok (some []), .ok ["offset"]) ∧
    ((tokenize "select a union select b as x from t").map (·.head?.map Token.kind),
        (parse "select a union select b as x from t" .native).map
          (selectClause? · |>.map clauseAliases),
        aliasesOf "select a union select b as x from t") =
      (.ok (some (.keyword .SELECT)), .ok (some []), .ok ["x"]) ∧
    ((tokenize "select a is distinct from b as x from t").map (·.head?.map Token.kind),
        (parse "select a is distinct from b as x from t" .native).map
          (selectClause? · |>.map clauseAliases),
        aliasesOf "select a is distinct from b as x from t") =
      (.ok (some (.keyword .SELECT)), .ok (some ["x"]), .error (.projection .noAlias)) := by
  refine ⟨?_, ?_, ?_⟩ <;> decide +kernel

end SqlInlay.Projection
