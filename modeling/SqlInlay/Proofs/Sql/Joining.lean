import SqlInlay.Proofs.Sql.Divisions
import SqlInlay.Sql.Layout

/-!
# Dividing undoes joining

Clauses are divided into items by looking at one node after the other, and what the nodes mean is
never known in full.  A word that may lead a join also names a function, the `AND` of a `BETWEEN` is
spelled like a connective, and a `CASE` may hold connectives that divide nothing.  That no stroke is
lost when a clause is divided (`divide_splitItems`) says nothing about this: it holds wherever the
cuts are.  The results of this module say where they are.  Items are put together as the query
language puts them together, and dividing gives back what was joined.

**Tables.**  A `TableReference` may hold anything but commas and joins, and words that could lead a
join only where they call a function.  References behind commas and joins come out one by one, each
join at the head of its item (`splitItems_fromBody`).

* `TableReference.fromCuts_append` — nothing cuts in a reference, wherever it is read from.  It
  comes down to `TableReference.opensJoin_of_suffix`: no end of a reference opens a join.
* `exists_fromCuts_join` — the first word of a join cuts, and the others stay with it.
* `itemsFrom_connected` — the induction over connections and references, for any item at hand that
  does not end in a comment.

**Joins taken back.**  Where joins have no lines of their own they are put back into the items in
front of them.  What that leaves is a division at commas, whatever the nodes are
(`joinItems_splitItems`).

* `JoinsAhead` — the invariant: in front of each cut that is no comma stands a join.  The cuts of a
  `FROM` have it (`joinsAhead_fromCuts`), and `joinItems_itemsFrom` needs nothing else.
* `KeepsTokens` — dividing does not look into groups, so it goes through what happens to the joins
  of the subqueries in them.

**Predicates.**  An `Operand` may hold any `CASE … END` and any `BETWEEN … AND …`, one in the other;
operands between connectives come out one by one (`splitItems_predicate`).

* `CaseBody`, `Operand` — a grammar of what stands between two connectives, to any depth.
* `PassesOver` — nodes that take `PredicateState` from one state to another without a cut.  Such
  nodes compose, so `Operand.passesOver` is an induction on the grammar, one case for each rule.
* `itemsFrom_connectedOperands` — the induction over connectives and operands.
-/

namespace SqlInlay.Sql

/-! ## Carrying cuts out

A division is made in two steps: each node is marked with what it does (`Cut`), and `itemsFrom`
carries the marks out.  The lemmas here are about the second step, so that what is left to be known
of a division is which nodes are marked.
-/

/-- Nodes that do not cut stay together: they go to the item at hand, in front of what the next cut
does. -/
lemma itemsFrom_inside (current nodes : List Node) (cuts : List (Cut × Node)) :
    itemsFrom current (nodes.map (Cut.inside, ·) ++ cuts) = itemsFrom (current ++ nodes) cuts := by
  induction nodes generalizing current with
  | nil => simp
  | cons n ns ih => simp [itemsFrom, ih]

/-- Nodes that do not end in a comment have no comments to give up. -/
lemma trailingComments_eq_nil {nodes : List Node}
    (h : ∀ n ∈ nodes.getLast?, n.isComment = false) : trailingComments nodes = [] := by
  rw [List.getLast?_eq_head?_reverse] at h
  unfold trailingComments
  rcases hrev : nodes.reverse with _ | ⟨n, ns⟩
  · rfl
  · simp [h n (by simp [hrev])]

lemma withoutTrailing_eq_self {nodes : List Node}
    (h : ∀ n ∈ nodes.getLast?, n.isComment = false) : withoutTrailing nodes = nodes := by
  have hsplit := withoutTrailing_append nodes
  rwa [trailingComments_eq_nil h, List.append_nil] at hsplit

/-- A cut in front of a node ends the item at hand, which keeps all that it holds. -/
lemma itemsFrom_before {current : List Node} (hne : current ≠ [])
    (hlast : ∀ n ∈ current.getLast?, n.isComment = false) (n : Node) (cuts : List (Cut × Node)) :
    itemsFrom current ((.before, n) :: cuts) = ⟨current, false⟩ :: itemsFrom [n] cuts := by
  simp [itemsFrom, withoutTrailing_eq_self hlast, trailingComments_eq_nil hlast, openItem, hne]

/-! ## Tables between commas and joins

`fromCuts` knows the node in front and looks ahead to see whether a join opens.  Both ends matter
where parts are put together: `fromCuts_append` says of a reference what its last node is to the
next part, and `exists_fromCuts_join` what a join needs of the part in front.
-/

/-- A keyword is no comma. -/
lemma Node.isKind_comma_of_isKeyword {n : Node} (h : n.isKeyword = true) :
    n.isKind .comma = false := by
  cases n with
  | token t =>
    cases hk : t.kind <;> simp_all [Node.isKeyword, Node.isKind, Node.token?, Token.isKeyword]
  | comment c => rfl
  | query o s c => rfl
  | list o is c => rfl

/-- A node that is no comment and no comma cuts if a join starts there. -/
lemma fromCuts_cons {n : Node} (hcomment : n.isComment = false) (hcomma : n.isKind .comma = false)
    (before : Option Node) (ns : List Node) :
    fromCuts before (n :: ns) =
      (if before.any (!·.spellsAny joinLeads) && opensJoin (n :: ns.filter (!·.isComment))
        then .before else .inside, n) :: fromCuts (some n) ns := by
  simp [fromCuts, hcomment, hcomma]

/-- The node is a parenthesized group. -/
def Node.isGroup : Node → Bool
  | .query _ _ _ | .list _ _ _ => true
  | _ => false

/-- A table reference with its alias and its condition.  At its top level are no commas, no joins
and no comments, and a word that may lead a join stands in front of a group only. -/
structure TableReference where
  nodes : List Node
  ne_nil : nodes ≠ []
  plain : ∀ n ∈ nodes, n.isComment = false ∧ n.isKind .comma = false ∧ n.spells .JOIN = false
  leads : ∀ front n back, nodes = front ++ n :: back → n.spellsAny joinLeads = true →
    ∃ group rest, back = group :: rest ∧ group.isGroup = true

/-- What stands between two table references: a comma, or the words of a join, which are read
together. -/
inductive Connection where
  | comma (mark : Token) (hmark : mark.kind = .comma)
  | join (leads : List Token) (word : Token) (hleads : ∀ t ∈ leads, t.spellsAny joinLeads = true)
    (hword : word.spells .JOIN = true)

namespace Connection

/-- The nodes of a connection. -/
def nodes : Connection → List Node
  | comma mark _ => [.token mark]
  | join leads word _ _ => (leads ++ [word]).map .token

/-- The nodes that stand at the head of the item behind. -/
def head : Connection → List Node
  | comma _ _ => []
  | join leads word _ _ => (leads ++ [word]).map .token

/-- The connection is a join. -/
def isJoin : Connection → Bool
  | comma _ _ => false
  | join _ _ _ _ => true

end Connection

/-- Table references behind their connections. -/
def connected (rest : List (Connection × TableReference)) : List Node :=
  rest.flatMap fun r => r.1.nodes ++ r.2.nodes

/-- The body of a `FROM`. -/
def fromBody (first : TableReference) (rest : List (Connection × TableReference)) : List Node :=
  first.nodes ++ connected rest

/-- An item of some nodes and those of the references behind it.  A comma is the flag of the item in
front of it, and the words of a join stand at the head of the item behind. -/
def itemsBetween (nodes : List Node) : List (Connection × TableReference) → List (Item Node)
  | [] => [⟨nodes, false⟩]
  | (c, t) :: rest => ⟨nodes, !c.isJoin⟩ :: itemsBetween (c.head ++ t.nodes) rest

lemma Node.isGroup_spells {n : Node} (h : n.isGroup = true) (word : Keyword) :
    n.spells word = false ∧ n.spellsAny joinLeads = false := by
  cases n <;> simp_all [Node.isGroup, Node.spells, Node.spellsAny, Node.token?]

namespace TableReference

variable (t : TableReference)

/-- A reference opens no join, wherever it is read from. -/
lemma opensJoin_of_suffix {front back : List Node} (h : t.nodes = front ++ back) (hne : back ≠ [])
    (rest : List Node) : opensJoin (back ++ rest) = false := by
  obtain ⟨n, ns, rfl⟩ := List.exists_cons_of_ne_nil hne
  have hjoin := (t.plain n (by simp [h])).2.2
  by_cases hlead : n.spellsAny joinLeads = true
  · obtain ⟨group, ms, rfl, hgroup⟩ := t.leads front n ns h hlead
    obtain ⟨hgroupJoin, hgroupLead⟩ := Node.isGroup_spells hgroup .JOIN
    simp [opensJoin, hlead, hgroupLead, hgroupJoin]
  · simp [opensJoin, hlead, hjoin]

/-- The last node of a reference leads no join and is no comment. -/
lemma exists_getLast? : ∃ m, t.nodes.getLast? = some m ∧ m.spellsAny joinLeads = false ∧
    m.isComment = false := by
  obtain ⟨front, m, hnodes⟩ := (List.eq_nil_or_concat t.nodes).resolve_left t.ne_nil
  refine ⟨m, by simp [hnodes], ?_, (t.plain m (by simp [hnodes])).1⟩
  by_contra hlead
  obtain ⟨group, rest, hback, -⟩ :=
    t.leads front m [] (by simpa using hnodes) (by simpa using hlead)
  simp at hback

lemma filter_nodes : t.nodes.filter (!·.isComment) = t.nodes :=
  List.filter_eq_self.2 fun n hn => by simp [(t.plain n hn).1]

/-- A reference alone is no join. -/
lemma isJoin_eq_false (comma : Bool) : (⟨t.nodes, comma⟩ : Item Node).isJoin = false := by
  have hopen := @opensJoin_of_suffix t [] t.nodes rfl t.ne_nil []
  rw [List.append_nil] at hopen
  simpa [Item.isJoin, t.filter_nodes] using hopen

/-- Nothing cuts in a reference, and what stands behind it is cut as behind some node that leads no
join: the last node of the reference. -/
lemma fromCuts_append (before : Option Node) (rest : List Node) :
    ∃ m, m.spellsAny joinLeads = false ∧
      fromCuts before (t.nodes ++ rest) =
        t.nodes.map (Cut.inside, ·) ++ fromCuts (some m) rest := by
  obtain ⟨last, hlast, hlead, -⟩ := t.exists_getLast?
  refine ⟨last, hlead, ?_⟩
  -- over the suffixes of the reference, for the node in front plays no part
  suffices hsuffix : ∀ front back, t.nodes = front ++ back → back ≠ [] →
      ∀ before, fromCuts before (back ++ rest) =
        back.map (Cut.inside, ·) ++ fromCuts (some last) rest from
    hsuffix [] t.nodes rfl t.ne_nil before
  intro front back h hne
  induction back generalizing front with
  | nil => exact absurd rfl hne
  | cons n ns ih =>
    intro before
    obtain ⟨hcomment, hcomma, -⟩ := t.plain n (by simp [h])
    have hfilter : n :: (ns ++ rest).filter (!·.isComment) =
        (n :: ns) ++ rest.filter (!·.isComment) := by
      rw [List.filter_append, List.filter_eq_self.2 fun m hm => by
        simp [(t.plain m (by simp [h, hm])).1]]
      rfl
    have hopen : opensJoin (n :: (ns ++ rest).filter (!·.isComment)) = false := by
      rw [hfilter]
      exact t.opensJoin_of_suffix h hne _
    rw [List.cons_append, fromCuts_cons hcomment hcomma, hopen, Bool.and_false,
      if_neg Bool.false_ne_true, List.map_cons, List.cons_append, List.cons.injEq]
    refine ⟨rfl, ?_⟩
    rcases ns with _ | ⟨m, ms⟩
    · obtain rfl : n = last := by simpa [h] using hlast
      rfl
    · exact ih (front ++ [n]) (by simp [h]) (by simp) (some n)

end TableReference

section Join

variable {leads : List Token} {word : Token}

lemma filter_map_token (tokens : List Token) :
    (tokens.map Node.token).filter (!·.isComment) = tokens.map .token := by
  refine List.filter_eq_self.2 fun n hn => ?_
  obtain ⟨t, -, rfl⟩ := List.mem_map.1 hn
  rfl

lemma spellsAny_token (t : Token) (words : List Keyword) :
    (Node.token t).spellsAny words = t.spellsAny words := rfl

/-- A word of a join is no comma. -/
lemma isKind_comma_of_mem_join (hleads : ∀ t ∈ leads, t.spellsAny joinLeads = true)
    (hword : word.spells .JOIN = true) {t : Token} (ht : t ∈ leads ++ [word]) :
    (Node.token t).isKind .comma = false := by
  rcases List.mem_append.1 ht with ht | ht
  · obtain ⟨u, k, hu, hk, -⟩ := @Node.exists_spells (.token t) joinLeads (hleads t ht)
    obtain rfl := Node.token.inj hu
    exact Node.isKind_comma_of_isKeyword
      (by simp [Node.isKeyword, Node.token?, Token.isKeyword, hk])
  · obtain rfl := List.mem_singleton.1 ht
    exact Node.isKind_comma_of_isKeyword (Node.isKeyword_of_spells (n := .token t) .JOIN hword)

/-- The word `JOIN` leads no join. -/
lemma spellsAny_join (hword : word.spells .JOIN = true) :
    (Node.token word).spellsAny joinLeads = false := by
  have hkind : word.kind = .keyword .JOIN := by simpa [Token.spells] using hword
  simp [Node.spellsAny, Node.token?, Token.spellsAny, Token.spells, joinLeads, hkind]

/-- The words of a join open one, whatever follows. -/
lemma opensJoin_join (hleads : ∀ t ∈ leads, t.spellsAny joinLeads = true)
    (hword : word.spells .JOIN = true) (rest : List Node) :
    opensJoin ((leads ++ [word]).map .token ++ rest) = true := by
  induction leads with
  | nil => simp [opensJoin, spellsAny_join hword, Node.spells, Node.token?, hword]
  | cons t ts ih =>
    obtain ⟨ht, hts⟩ := List.forall_mem_cons.1 hleads
    simpa [opensJoin, spellsAny_token, ht] using ih hts

/-- Behind a word that leads a join nothing of the join cuts. -/
lemma fromCuts_run {before : Node} (hbefore : before.spellsAny joinLeads = true)
    (hleads : ∀ t ∈ leads, t.spellsAny joinLeads = true) (hword : word.spells .JOIN = true)
    (rest : List Node) :
    fromCuts (some before) ((leads ++ [word]).map .token ++ rest) =
      ((leads ++ [word]).map .token).map (Cut.inside, ·) ++
        fromCuts (some (.token word)) rest := by
  have hcomma := fun t ht => isKind_comma_of_mem_join hleads hword (t := t) ht
  induction leads generalizing before with
  | nil => simp [fromCuts_cons rfl (hcomma word (by simp)), hbefore]
  | cons t ts ih =>
    obtain ⟨ht, hts⟩ := List.forall_mem_cons.1 hleads
    have hrest := @ih (.token t) ht hts fun u hu => hcomma u (List.mem_cons_of_mem _ hu)
    simp only [List.cons_append, List.map_cons, fromCuts_cons rfl (hcomma t (by simp)), hbefore,
      hrest, Option.any_some, Bool.not_true, Bool.false_and, Bool.false_eq_true, if_false]

/-- The first word of a join cuts, and the others stay with it.  Which word that is depends on the
join: `JOIN` itself, or one of those that lead it. -/
lemma exists_fromCuts_join {before : Node} (hbefore : before.spellsAny joinLeads = false)
    (hleads : ∀ t ∈ leads, t.spellsAny joinLeads = true) (hword : word.spells .JOIN = true)
    (rest : List Node) :
    ∃ n ns, (leads ++ [word]).map Node.token = n :: ns ∧
      fromCuts (some before) ((leads ++ [word]).map .token ++ rest) =
        (.before, n) :: (ns.map (Cut.inside, ·) ++ fromCuts (some (.token word)) rest) := by
  have hopen := opensJoin_join hleads hword (rest.filter (!·.isComment))
  rw [← filter_map_token, ← List.filter_append] at hopen
  have hcomma := fun t ht => isKind_comma_of_mem_join hleads hword (t := t) ht
  rcases leads with _ | ⟨t, ts⟩
  · have hcut := fromCuts_cons (n := .token word) rfl (hcomma word (by simp)) (some before) rest
    have hword : opensJoin (.token word :: rest.filter (!·.isComment)) = true := hopen
    refine ⟨.token word, [], rfl, hcut.trans ?_⟩
    simp [hbefore, hword]
  · obtain ⟨ht, hts⟩ := List.forall_mem_cons.1 hleads
    have hcut := fromCuts_cons (n := .token t) rfl (hcomma t (by simp)) (some before)
      ((ts ++ [word]).map Node.token ++ rest)
    have hjoin : opensJoin (.token t :: ((ts ++ [word]).map Node.token ++ rest).filter
      (!·.isComment)) = true := hopen
    refine ⟨.token t, (ts ++ [word]).map .token, rfl, hcut.trans ?_⟩
    rw [hjoin, @fromCuts_run ts word (.token t) ht hts hword]
    simp [hbefore]

end Join

/-- Behind some nodes, connections and references come out one by one.  The induction is over the
references, for any item at hand: a comma ends that item, and so does the first word of a join,
which opens the next. -/
lemma itemsFrom_connected (rest : List (Connection × TableReference)) {current : List Node}
    (hne : current ≠ []) (hlast : ∀ n ∈ current.getLast?, n.isComment = false) {before : Node}
    (hbefore : before.spellsAny joinLeads = false) :
    itemsFrom current (fromCuts (some before) (connected rest)) = itemsBetween current rest := by
  induction rest generalizing current before with
  | nil => simp [connected, fromCuts, itemsFrom, itemsBetween, openItem, hne]
  | cons r rest ih =>
    obtain ⟨c, t⟩ := r
    have hconnected : connected ((c, t) :: rest) = c.nodes ++ (t.nodes ++ connected rest) := by
      simp [connected]
    obtain ⟨last, hlastNode, -, hcomment⟩ := t.exists_getLast?
    rw [hconnected]
    cases c with
    | comma mark hmark =>
      obtain ⟨m, hm, hcuts⟩ := t.fromCuts_append (some (.token mark)) (connected rest)
      have hcomma : fromCuts (some before) (.token mark :: (t.nodes ++ connected rest)) =
          (.comma, .token mark) :: fromCuts (some (.token mark)) (t.nodes ++ connected rest) := by
        simp [fromCuts, Node.isComment, Node.comment?, Node.isKind, Node.token?, hmark]
      rw [Connection.nodes, List.singleton_append, hcomma, itemsFrom, hcuts, itemsFrom_inside,
        List.nil_append, ih t.ne_nil (by simp [hlastNode, hcomment]) hm]
      rfl
    | join leads word hleads hword =>
      obtain ⟨m, hm, hcuts⟩ := t.fromCuts_append (some (.token word)) (connected rest)
      obtain ⟨n, ns, hwords, hjoin⟩ := exists_fromCuts_join hbefore hleads hword
        (t.nodes ++ connected rest)
      have hitem : ∀ k ∈ (n :: ns ++ t.nodes).getLast?, k.isComment = false := by
        rw [List.getLast?_append_of_ne_nil _ t.ne_nil, hlastNode]
        simpa using hcomment
      rw [Connection.nodes, hjoin, itemsFrom_before hne hlast, itemsFrom_inside, hcuts,
        itemsFrom_inside, List.singleton_append, ih (by simp) hitem hm, ← hwords]
      rfl

/-- An item of a reference is a join if the reference comes by one. -/
lemma isJoin_head_append (c : Connection) (t : TableReference) (comma : Bool) :
    (⟨c.head ++ t.nodes, comma⟩ : Item Node).isJoin = c.isJoin := by
  cases c with
  | comma mark hmark => exact t.isJoin_eq_false comma
  | join leads word hleads hword =>
    have hopen := opensJoin_join hleads hword t.nodes
    rwa [← filter_map_token, ← t.filter_nodes, ← List.filter_append] at hopen

lemma map_nodes_itemsBetween (nodes : List Node) (rest : List (Connection × TableReference)) :
    (itemsBetween nodes rest).map Item.nodes =
      nodes :: rest.map fun r => r.1.head ++ r.2.nodes := by
  induction rest generalizing nodes with
  | nil => rfl
  | cons r rest ih => simp [itemsBetween, ih]

lemma map_comma_itemsBetween (nodes : List Node) (rest : List (Connection × TableReference)) :
    (itemsBetween nodes rest).map Item.comma = rest.map (!·.1.isJoin) ++ [false] := by
  induction rest generalizing nodes with
  | nil => rfl
  | cons r rest ih => simp [itemsBetween, ih]

lemma map_isJoin_itemsBetween {nodes : List Node} {joined : Bool}
    (h : ∀ comma, (⟨nodes, comma⟩ : Item Node).isJoin = joined)
    (rest : List (Connection × TableReference)) :
    (itemsBetween nodes rest).map Item.isJoin = joined :: rest.map (·.1.isJoin) := by
  induction rest generalizing nodes joined with
  | nil => simp [itemsBetween, h]
  | cons r rest ih => simp [itemsBetween, h, ih fun comma => isJoin_head_append r.1 r.2 comma]

/-- **A `FROM` is divided as it was joined.**  The items are the references, each behind the words
of its join; those that come by a join are joins and no others, and an item has a comma behind it
exactly if the next reference does not come by a join. -/
theorem splitItems_fromBody (first : TableReference) (rest : List (Connection × TableReference)) :
    (splitItems .tables (fromBody first rest)).map Item.nodes =
        first.nodes :: rest.map (fun r => r.1.head ++ r.2.nodes) ∧
      (splitItems .tables (fromBody first rest)).map Item.isJoin =
        false :: rest.map (·.1.isJoin) ∧
      (splitItems .tables (fromBody first rest)).map Item.comma =
        rest.map (!·.1.isJoin) ++ [false] := by
  have hitems : splitItems .tables (fromBody first rest) = itemsBetween first.nodes rest := by
    obtain ⟨m, hm, hcuts⟩ := first.fromCuts_append none (connected rest)
    obtain ⟨last, hlast, -, hcomment⟩ := first.exists_getLast?
    calc splitItems .tables (fromBody first rest)
        = itemsFrom [] (fromCuts none (first.nodes ++ connected rest)) := rfl
      _ = itemsFrom first.nodes (fromCuts (some m) (connected rest)) := by
          rw [hcuts, itemsFrom_inside, List.nil_append]
      _ = itemsBetween first.nodes rest :=
          itemsFrom_connected rest first.ne_nil (by simp [hlast, hcomment]) hm
  rw [hitems]
  exact ⟨map_nodes_itemsBetween _ rest,
    map_isJoin_itemsBetween (fun comma => first.isJoin_eq_false comma) rest,
    map_comma_itemsBetween _ rest⟩

/-- The tables `a, b left join c on left(d)`, where the second `left` calls a function. -/
theorem splitItems_fromBody_left_called :
    ∃ (a b c : TableReference) (comma join : Connection),
      a.nodes = [.token ⟨.identifier, "a", 0⟩] ∧ b.nodes = [.token ⟨.identifier, "b", 3⟩] ∧
      c.nodes = [.token ⟨.identifier, "c", 15⟩, .token ⟨.keyword .ON, "on", 17⟩,
        .token ⟨.keyword .LEFT, "left", 20⟩,
        .list ⟨.openParen, "(", 24⟩ [⟨[.token ⟨.identifier, "d", 25⟩], false⟩]
          ⟨.closeParen, ")", 26⟩] ∧
      join.head = [.token ⟨.keyword .LEFT, "left", 5⟩, .token ⟨.keyword .JOIN, "join", 10⟩] ∧
      (splitItems .tables (fromBody a [(comma, b), (join, c)])).map Item.nodes =
        [a.nodes, b.nodes, join.head ++ c.nodes] ∧
      (splitItems .tables (fromBody a [(comma, b), (join, c)])).map Item.isJoin =
        [false, false, true] ∧
      (splitItems .tables (fromBody a [(comma, b), (join, c)])).map Item.comma =
        [true, false, false] := by
  have hplain : ∀ name offset, ∀ n ∈ [Node.token ⟨.identifier, name, offset⟩],
      n.isComment = false ∧ n.isKind .comma = false ∧ n.spells .JOIN = false := by
    rintro name offset n hn
    obtain rfl := List.mem_singleton.1 hn
    exact ⟨rfl, rfl, rfl⟩
  have hleads : ∀ name offset front n back,
      [Node.token ⟨.identifier, name, offset⟩] = front ++ n :: back →
        n.spellsAny joinLeads = true →
        ∃ group rest, back = group :: rest ∧ group.isGroup = true := by
    rintro name offset (_ | ⟨m, front⟩) n back h hlead
    · obtain ⟨rfl, -⟩ := List.cons_eq_cons.1 h
      cases hlead
    · simp at h
  have hcalled : ∀ call : Node, call.isGroup = true → ∀ front n back,
      [Node.token ⟨.identifier, "c", 15⟩, .token ⟨.keyword .ON, "on", 17⟩,
        .token ⟨.keyword .LEFT, "left", 20⟩, call] = front ++ n :: back →
        n.spellsAny joinLeads = true →
        ∃ group rest, back = group :: rest ∧ group.isGroup = true := by
    intro call hcall front n back h hlead
    rcases front with _ | ⟨_, _ | ⟨_, _ | ⟨_, _ | ⟨_, front⟩⟩⟩⟩ <;>
      simp only [List.nil_append, List.cons_append, List.cons.injEq] at h
    · obtain ⟨rfl, -⟩ := h
      cases hlead
    · obtain ⟨-, rfl, -⟩ := h
      cases hlead
    · obtain ⟨-, -, rfl, rfl⟩ := h
      exact ⟨call, [], rfl, hcall⟩
    · obtain ⟨-, -, -, rfl, -⟩ := h
      exact absurd hlead (by simp [(Node.isGroup_spells hcall .JOIN).2])
    · simp at h
  exact ⟨⟨_, by simp, hplain _ _, hleads _ _⟩, ⟨_, by simp, hplain _ _, hleads _ _⟩,
    ⟨_, by simp, by simp [Node.isComment, Node.comment?, Node.isKind, Node.spells, Node.token?,
      Token.spells], hcalled _ rfl⟩,
    .comma ⟨.comma, ",", 1⟩ rfl, .join [⟨.keyword .LEFT, "left", 5⟩] ⟨.keyword .JOIN, "join", 10⟩
      (by simp [Token.spellsAny, Token.spells, joinLeads]) rfl,
    rfl, rfl, rfl, rfl, splitItems_fromBody _ _⟩

/-! ## Joins taken back

`joinItems` goes over finished items and cannot know where the cuts were.  The comments at the end
of an item have been split off by then and stand in items of their own, so the proof does not follow
the items but the cuts that they come from: `joinItems_itemsFrom` says of each item at hand what
becomes of it, and of a join what becomes of the item that takes it in.
-/

/-- The nodes in front of the next cut. -/
def untilCut (cuts : List (Cut × Node)) : List Node :=
  (cuts.takeWhile (·.1 == .inside)).map Prod.snd

/-- In front of each cut that is no comma stands a join, and all of its words belong to the item. -/
def JoinsAhead : List (Cut × Node) → Prop
  | [] => True
  | (cut, n) :: cuts =>
    (cut = .before → opensJoin ((n :: untilCut cuts).filter (!·.isComment)) = true) ∧
      JoinsAhead cuts

/-- The cuts at commas alone. -/
def withoutJoins (cuts : List (Cut × Node)) : List (Cut × Node) :=
  cuts.map fun c => (if c.1 = .comma then .comma else .inside, c.2)

lemma filter_withoutTrailing (nodes : List Node) :
    (withoutTrailing nodes).filter (!·.isComment) = nodes.filter (!·.isComment) := by
  have hnone : (trailingComments nodes).filter (!·.isComment) = [] :=
    List.filter_eq_nil_iff.2 fun n hn => by simp [isComment_of_mem_trailingComments hn]
  conv_rhs => rw [← withoutTrailing_append nodes, List.filter_append, hnone, List.append_nil]

lemma ne_nil_of_opensJoin {nodes : List Node}
    (h : opensJoin (nodes.filter (!·.isComment)) = true) : nodes ≠ [] := by
  rintro rfl
  simp [opensJoin] at h

/-- An item with a comma behind it takes in nothing. -/
lemma absorbJoins_comma (nodes : List Node) (is : List (Item Node)) :
    absorbJoins ⟨nodes, true⟩ is = ⟨nodes, true⟩ :: joinItems is := by
  cases is with
  | nil => rfl
  | cons i is => simp [absorbJoins, joinItems]

/-- An item without a comma takes in the join behind it. -/
lemma absorbJoins_join {nodes : List Node} (h : opensJoin (nodes.filter (!·.isComment)) = true)
    (front : List Node) (comma : Bool) (is : List (Item Node)) :
    absorbJoins ⟨front, false⟩ (⟨nodes, comma⟩ :: is) = absorbJoins ⟨front ++ nodes, comma⟩ is := by
  simp [absorbJoins, Item.isJoin, h]

/-- Cutting in front of joins and putting the joins back comes to cutting at commas, for the item at
hand and for a join that is to be put back into the item `front`.  The two are shown together, for
an item that takes in a join goes on to the next cut. -/
lemma joinItems_itemsFrom {cuts : List (Cut × Node)} (h : JoinsAhead cuts) (current : List Node) :
    joinItems (itemsFrom current cuts) = itemsFrom current (withoutJoins cuts) ∧
      ∀ front, opensJoin ((current ++ untilCut cuts).filter (!·.isComment)) = true →
        absorbJoins ⟨front, false⟩ (itemsFrom current cuts) =
          itemsFrom (front ++ current) (withoutJoins cuts) := by
  induction cuts generalizing current with
  | nil =>
    refine ⟨by cases current <;> rfl, fun front hjoin => ?_⟩
    have hjoin : opensJoin (current.filter (!·.isComment)) = true := by
      simpa [untilCut] using hjoin
    have hne := ne_nil_of_opensJoin hjoin
    have hitem : itemsFrom current [] = [⟨current, false⟩] := by simp [itemsFrom, openItem, hne]
    rw [hitem, absorbJoins_join hjoin]
    simp [absorbJoins, itemsFrom, withoutJoins, openItem, hne]
  | cons cut cuts ih =>
    obtain ⟨cut, n⟩ := cut
    obtain ⟨hcut, hcuts⟩ := h
    cases cut with
    | comma =>
      have hrest := (ih hcuts []).1
      refine ⟨?_, fun front hjoin => ?_⟩
      · rw [itemsFrom, joinItems, absorbJoins_comma, hrest]
        rfl
      · have hjoin : opensJoin (current.filter (!·.isComment)) = true := by
          simpa [untilCut] using hjoin
        rw [itemsFrom, absorbJoins_join hjoin, absorbJoins_comma, hrest]
        rfl
    | inside =>
      obtain ⟨hrest, hback⟩ := ih hcuts (current ++ [n])
      refine ⟨hrest, fun front hjoin => ?_⟩
      have hall := hback front (by simpa [untilCut] using hjoin)
      rwa [← List.append_assoc] at hall
    | before =>
      have hsplit := withoutTrailing_append current
      have hnext : opensJoin ((trailingComments current ++ [n] ++ untilCut cuts).filter
          (!·.isComment)) = true := by
        have hnone : (trailingComments current).filter (!·.isComment) = [] :=
          List.filter_eq_nil_iff.2 fun m hm => by simp [isComment_of_mem_trailingComments hm]
        rw [List.append_assoc, List.filter_append, hnone]
        exact hcut rfl
      obtain ⟨hrest, hback⟩ := ih hcuts (trailingComments current ++ [n])
      refine ⟨?_, fun front hjoin => ?_⟩
      · by_cases hempty : withoutTrailing current = []
        · rw [hempty, List.nil_append] at hsplit
          rw [hsplit] at hrest
          rw [itemsFrom, hempty, hsplit]
          exact hrest
        · have hitem : openItem (withoutTrailing current) = [⟨withoutTrailing current, false⟩] := by
            simp [openItem, hempty]
          have hall := hback (withoutTrailing current) hnext
          rw [← List.append_assoc, hsplit] at hall
          rw [itemsFrom, hitem, List.singleton_append, joinItems, hall]
          rfl
      · have hjoin : opensJoin (current.filter (!·.isComment)) = true := by
          simpa [untilCut] using hjoin
        rw [← filter_withoutTrailing] at hjoin
        have hitem : openItem (withoutTrailing current) = [⟨withoutTrailing current, false⟩] := by
          simp [openItem, ne_nil_of_opensJoin hjoin]
        have hall := hback (front ++ withoutTrailing current) hnext
        rw [← List.append_assoc, List.append_assoc front, hsplit] at hall
        rw [itemsFrom, hitem, List.singleton_append, absorbJoins_join hjoin, hall]
        rfl

/-- The words behind one that leads a join belong to its item. -/
lemma opensJoin_untilCut {before : Node} (hbefore : before.spellsAny joinLeads = true)
    {nodes : List Node} (h : opensJoin (nodes.filter (!·.isComment)) = true) :
    opensJoin ((untilCut (fromCuts (some before) nodes)).filter (!·.isComment)) = true := by
  induction nodes generalizing before with
  | nil => simp [opensJoin] at h
  | cons n ns ih =>
    by_cases hcomment : n.isComment = true
    · have hns : opensJoin (ns.filter (!·.isComment)) = true := by simpa [hcomment] using h
      simpa [fromCuts, hcomment, untilCut] using ih hbefore hns
    · rw [Bool.not_eq_true] at hcomment
      have hopen : opensJoin (n :: ns.filter (!·.isComment)) = true := by
        simpa [hcomment] using h
      have hinside : fromCuts (some before) (n :: ns) = (.inside, n) :: fromCuts (some n) ns := by
        rw [fromCuts_cons hcomment (Node.isKind_comma_of_isKeyword (isKeyword_of_opensJoin hopen))]
        simp [hbefore]
      rw [hinside]
      by_cases hlead : n.spellsAny joinLeads = true
      · have hns : opensJoin (ns.filter (!·.isComment)) = true := by
          simpa [opensJoin, hlead] using hopen
        simpa [untilCut, hcomment, opensJoin, hlead] using ih hlead hns
      · have hword : n.spells .JOIN = true := by simpa [opensJoin, hlead] using hopen
        simp [untilCut, hcomment, opensJoin, hlead, hword]

/-- Where a `FROM` is cut in front of a node, a join stands there. -/
lemma joinsAhead_fromCuts (before : Option Node) (nodes : List Node) :
    JoinsAhead (fromCuts before nodes) := by
  induction nodes generalizing before with
  | nil => trivial
  | cons n ns ih =>
    by_cases hcomment : n.isComment = true
    · simpa [fromCuts, hcomment, JoinsAhead] using ih before
    · rw [Bool.not_eq_true] at hcomment
      by_cases hcomma : n.isKind .comma = true
      · simpa [fromCuts, hcomment, hcomma, JoinsAhead] using ih (some n)
      · rw [Bool.not_eq_true] at hcomma
        rw [fromCuts_cons hcomment hcomma]
        refine ⟨fun hcut => ?_, ih (some n)⟩
        split at hcut
        · rename_i hstarts
          have hopen := (Bool.and_eq_true_iff.1 hstarts).2
          by_cases hlead : n.spellsAny joinLeads = true
          · have hns : opensJoin (ns.filter (!·.isComment)) = true := by
              simpa [opensJoin, hlead] using hopen
            simpa [hcomment, opensJoin, hlead] using opensJoin_untilCut hlead hns
          · have hword : n.spells .JOIN = true := by simpa [opensJoin, hlead] using hopen
            simp [hcomment, opensJoin, hlead, hword]
        · cases hcut

lemma withoutJoins_fromCuts (before : Option Node) (nodes : List Node) :
    withoutJoins (fromCuts before nodes) = commaCuts nodes := by
  induction nodes generalizing before with
  | nil => rfl
  | cons n ns ih =>
    by_cases hcomment : n.isComment = true
    · have hcomma : n.isKind .comma = false := by
        cases n <;> simp_all [Node.isComment, Node.comment?, Node.isKind, Node.token?]
      have hrest := ih before
      simp only [withoutJoins, commaCuts] at hrest
      simp [fromCuts, hcomment, hcomma, withoutJoins, commaCuts, hrest]
    · rw [Bool.not_eq_true] at hcomment
      have hrest := ih (some n)
      simp only [withoutJoins, commaCuts] at hrest
      by_cases hcomma : n.isKind .comma = true
      · simp [fromCuts, hcomment, hcomma, withoutJoins, commaCuts, hrest]
      · rw [Bool.not_eq_true] at hcomma
        rw [fromCuts_cons hcomment hcomma]
        split <;> simp [withoutJoins, commaCuts, hcomma, hrest]

/-- Dividing does not look into groups: it goes through any change to the inside of nodes. -/
structure KeepsTokens (f : Node → Node) : Prop where
  token? : ∀ n, (f n).token? = n.token?
  comment? : ∀ n, (f n).comment? = n.comment?

namespace KeepsTokens

variable {f : Node → Node}

lemma isComment (h : KeepsTokens f) (n : Node) : (f n).isComment = n.isComment := by
  rw [Node.isComment, h.comment?, Node.isComment]

lemma spellsAny (h : KeepsTokens f) (n : Node) (words : List Keyword) :
    (f n).spellsAny words = n.spellsAny words := by
  rw [Node.spellsAny, h.token?, Node.spellsAny]

lemma trailingComments_map (h : KeepsTokens f) (nodes : List Node) :
    trailingComments (nodes.map f) = (trailingComments nodes).map f := by
  have hcomment : Node.isComment ∘ f = Node.isComment := funext h.isComment
  have hown : (fun n : Node => !n.isOwnLineComment) ∘ f = fun n => !n.isOwnLineComment := by
    funext n
    simp [Node.isOwnLineComment, h.comment?]
  simp only [trailingComments, ← List.map_reverse, List.takeWhile_map, List.dropWhile_map, hcomment,
    hown]

lemma withoutTrailing_map (h : KeepsTokens f) (nodes : List Node) :
    withoutTrailing (nodes.map f) = (withoutTrailing nodes).map f := by
  simp [withoutTrailing, h.trailingComments_map]

lemma itemsFrom_map (h : KeepsTokens f) (current : List Node) (cuts : List (Cut × Node)) :
    itemsFrom (current.map f) (cuts.map (Prod.map id f)) =
      (itemsFrom current cuts).map fun i => ⟨i.nodes.map f, i.comma⟩ := by
  induction cuts generalizing current with
  | nil => cases current <;> rfl
  | cons cut cuts ih =>
    obtain ⟨cut, n⟩ := cut
    cases cut with
    | comma =>
      have hrest := ih []
      simp only [List.map_nil] at hrest
      simp [itemsFrom, hrest]
    | before =>
      have hrest := ih (trailingComments current ++ [n])
      simp only [List.map_append, List.map_cons, List.map_nil] at hrest
      simp only [List.map_cons, Prod.map_apply, id_eq, itemsFrom, h.trailingComments_map,
        h.withoutTrailing_map, hrest, List.map_append]
      cases withoutTrailing current <;> rfl
    | inside => simpa [itemsFrom] using ih (current ++ [n])

lemma opensJoin_map (h : KeepsTokens f) (nodes : List Node) :
    opensJoin (nodes.map f) = opensJoin nodes := by
  induction nodes with
  | nil => rfl
  | cons n ns ih => simp [opensJoin, h.spellsAny, ih, Node.spells, h.token?]

lemma fromCuts_map (h : KeepsTokens f) (before : Option Node) (nodes : List Node) :
    fromCuts (before.map f) (nodes.map f) = (fromCuts before nodes).map (Prod.map id f) := by
  induction nodes generalizing before with
  | nil => rfl
  | cons n ns ih =>
    have hfilter : (ns.map f).filter (!·.isComment) = (ns.filter (!·.isComment)).map f := by
      rw [List.filter_map]
      congr 2
      funext m
      simp [h.isComment]
    have hopen : opensJoin (f n :: (ns.map f).filter (!·.isComment)) =
        opensJoin (n :: ns.filter (!·.isComment)) := by
      rw [hfilter, ← List.map_cons, h.opensJoin_map]
    have hbefore : (before.map f).any (!·.spellsAny joinLeads) =
        before.any (!·.spellsAny joinLeads) := by
      cases before <;> simp [h.spellsAny]
    have hcomma : (f n).isKind .comma = n.isKind .comma := by
      rw [Node.isKind, h.token?, Node.isKind]
    have hsome := ih (some n)
    rw [Option.map_some] at hsome
    simp only [List.map_cons, fromCuts, h.isComment, hcomma, hbefore, hopen, ih before, hsome]
    split
    · rfl
    · split <;> rfl

end KeepsTokens

lemma keepsTokens_mergeJoins : KeepsTokens Node.mergeJoins := by
  constructor <;> intro n <;> cases n <;> simp [Node.mergeJoins, Node.token?, Node.comment?]

lemma mergeNodes_eq_map (nodes : List Node) : mergeNodes nodes = nodes.map Node.mergeJoins := by
  induction nodes with
  | nil => simp [mergeNodes]
  | cons n ns ih => simp [mergeNodes, ih]

lemma mergeItems_eq_map (items : List (Item Node)) :
    mergeItems items = items.map fun i => ⟨i.nodes.map Node.mergeJoins, i.comma⟩ := by
  induction items with
  | nil => simp [mergeItems]
  | cons i is ih => simp [mergeItems, ih, mergeNodes_eq_map]

/-- **Joins taken back leave a division at commas.**  So a style without lines for joins lays out
the nodes of a `FROM`, in which the joins of subqueries are taken back as well, as those of any
list that is divided at commas. -/
theorem joinItems_splitItems (nodes : List Node) :
    joinItems (splitItems .tables nodes) = splitCommas nodes ∧
      mergeBody .tables (.items (splitItems .tables nodes)) =
        .items (splitCommas (mergeNodes nodes)) := by
  have hdivide : ∀ ns, joinItems (splitItems .tables ns) = splitCommas ns := by
    intro ns
    have hall := (joinItems_itemsFrom (joinsAhead_fromCuts none ns) []).1
    rwa [withoutJoins_fromCuts] at hall
  have hmerge : mergeItems (splitItems .tables nodes) = splitItems .tables (mergeNodes nodes) := by
    have hcuts := keepsTokens_mergeJoins.fromCuts_map none nodes
    have hitems := keepsTokens_mergeJoins.itemsFrom_map [] (fromCuts none nodes)
    rw [mergeItems_eq_map, mergeNodes_eq_map]
    exact hitems.symm.trans (congrArg (itemsFrom []) hcuts.symm)
  exact ⟨hdivide nodes, by rw [mergeBody, hmerge, if_pos rfl, hdivide]⟩

/-! ## Operands between connectives -/

/-- What stands between `CASE` and `END`: anything, with every further `CASE` closed.  Connectives
in it divide nothing. -/
inductive CaseBody : List Node → Prop
  | nil : CaseBody []
  | node {n : Node} {ns : List Node} (hcomment : n.isComment = false)
      (hplain : n.spellsAny [.CASE, .END] = false) (h : CaseBody ns) : CaseBody (n :: ns)
  | case {opening closing : Node} {body ns : List Node} (hopening : opening.spells .CASE = true)
      (hbody : CaseBody body) (hclosing : closing.spells .END = true) (h : CaseBody ns) :
      CaseBody (opening :: (body ++ closing :: ns))

/-- What an operand of a predicate may go on with, where `between` says that a `BETWEEN` waits for
its `AND`.  Every `CASE` is closed; outside of them stand no connectives, but for one `AND` behind
each `BETWEEN` and in front of the next. -/
inductive Operand : Bool → List Node → Prop
  | nil : Operand false []
  | node {between : Bool} {n : Node} {ns : List Node} (hcomment : n.isComment = false)
      (hplain : n.spellsAny [.CASE, .END, .BETWEEN, .AND, .OR] = false) (h : Operand between ns) :
      Operand between (n :: ns)
  | case {between : Bool} {opening closing : Node} {body ns : List Node}
      (hopening : opening.spells .CASE = true) (hbody : CaseBody body)
      (hclosing : closing.spells .END = true) (h : Operand between ns) :
      Operand between (opening :: (body ++ closing :: ns))
  | between {n : Node} {ns : List Node} (hn : n.spells .BETWEEN = true) (h : Operand true ns) :
      Operand false (n :: ns)
  | and {n : Node} {ns : List Node} (hn : n.spells .AND = true) (h : Operand false ns) :
      Operand true (n :: ns)

/-- An operand of a predicate. -/
structure PredicateOperand where
  nodes : List Node
  ne_nil : nodes ≠ []
  shape : Operand false nodes

/-- A word between two operands. -/
structure Connective where
  word : Token
  connects : word.spellsAny [.AND, .OR] = true

/-- The operands behind their connectives. -/
def connectedOperands (rest : List (Connective × PredicateOperand)) : List Node :=
  rest.flatMap fun r => .token r.1.word :: r.2.nodes

/-- Operands with connectives between them. -/
def predicateOf (first : PredicateOperand) (rest : List (Connective × PredicateOperand)) :
    List Node :=
  first.nodes ++ connectedOperands rest

/-- Some connective divides the predicate. -/
def isCompound (nodes : List Node) : Bool :=
  (predicateCuts ⟨0, false, false⟩ nodes).any (·.1 == .before)

/-! ### Where a predicate is divided -/

lemma itemsFrom_ne_nil {current : List Node} (hne : current ≠ []) (cuts : List (Cut × Node)) :
    itemsFrom current cuts ≠ [] := by
  induction cuts generalizing current with
  | nil => simp [itemsFrom, openItem, hne]
  | cons cut cuts ih =>
    obtain ⟨cut, n⟩ := cut
    cases cut with
    | comma => simp [itemsFrom]
    | before =>
      have hrest := @ih (trailingComments current ++ [n]) (by simp)
      simp [itemsFrom, hrest]
    | inside => exact ih (by simp)

/-- Connectives in front of all code start no item. -/
lemma PredicateState.begun_of_step_before {s : PredicateState} {t : Token}
    (h : (s.step t).1 = .before) : s.begun = true := by
  unfold PredicateState.step at h
  simp only at h
  repeat' split at h
  all_goals simp_all

/-- There are several items if some connective cuts, and one at most if none does.  An item is
opened at a cut only if some code stands in front of it, which holds here because nothing is cut
before the predicate has begun. -/
lemma length_itemsFrom_predicateCuts (s : PredicateState) (nodes current : List Node)
    (hbegun : s.begun = true → ∃ n ∈ current, n.isComment = false) :
    (predicateCuts s nodes).any (·.1 == .before) = true ↔
      2 ≤ (itemsFrom current (predicateCuts s nodes)).length := by
  fun_induction predicateCuts s nodes generalizing current with
  | case1 s => cases current <;> simp [itemsFrom, openItem]
  | case2 s t ns ih =>
    cases hcut : (s.step t).1 with
    | comma => exact absurd hcut (s.step_ne_comma t)
    | inside =>
      have hrest := ih (current ++ [.token t]) fun _ => ⟨.token t, by simp, rfl⟩
      simpa [itemsFrom] using hrest
    | before =>
      obtain ⟨n, hn, hcode⟩ := hbegun (PredicateState.begun_of_step_before hcut)
      have hkept : withoutTrailing current ≠ [] := by
        intro hnil
        have hsplit := withoutTrailing_append current
        rw [hnil, List.nil_append] at hsplit
        rw [← hsplit] at hn
        exact absurd (isComment_of_mem_trailingComments hn) (by simp [hcode])
      have hrest := List.length_pos_iff.2 (@itemsFrom_ne_nil
        (trailingComments current ++ [.token t]) (by simp) (predicateCuts (s.step t).2 ns))
      simp only [List.any_cons, beq_self_eq_true, Bool.true_or, true_iff, itemsFrom, openItem,
        List.length_append]
      simp [hkept]
      omega
  | case3 s c ns ih =>
    have hrest := ih (current ++ [.comment c]) fun h => by
      obtain ⟨n, hn, hcode⟩ := hbegun h
      exact ⟨n, by simp [hn], hcode⟩
    simpa [itemsFrom] using hrest
  | case4 s n ns htoken hcomment ih =>
    have hcode : n.isComment = false := by
      cases n with
      | comment c => exact absurd rfl (hcomment c)
      | token t => rfl
      | query o b c => rfl
      | list o b c => rfl
    have hrest := ih (current ++ [n]) fun _ => ⟨n, by simp, hcode⟩
    simpa [itemsFrom] using hrest

/-- A predicate is compound if it is divided into several items. -/
lemma isCompound_iff (nodes : List Node) :
    isCompound nodes = true ↔ 2 ≤ (splitPredicate nodes).length :=
  length_itemsFrom_predicateCuts ⟨0, false, false⟩ nodes [] (by simp)

/-! ### Reading an operand

A predicate is cut by a machine with three things to remember: how many `CASE` are open, whether a
`BETWEEN` waits for its `AND`, and whether any code has been read.  Of an operand it is enough to
know that it is read without a cut and what the machine remembers behind it.
-/

/-- Nodes that are read from one state to another without a cut, whatever follows them. -/
def PassesOver (s : PredicateState) (nodes : List Node) (s' : PredicateState) : Prop :=
  ∀ rest, predicateCuts s (nodes ++ rest) = nodes.map (Cut.inside, ·) ++ predicateCuts s' rest

namespace PassesOver

variable {s s' s'' : PredicateState} {n : Node} {ns ms : List Node}

lemma nil (s : PredicateState) : PassesOver s [] s := fun _ => rfl

lemma append (h : PassesOver s ns s') (h' : PassesOver s' ms s'') :
    PassesOver s (ns ++ ms) s'' := by
  intro rest
  rw [List.append_assoc, h, h', List.map_append, List.append_assoc]

lemma cons (h : PassesOver s [n] s') (h' : PassesOver s' ns s'') : PassesOver s (n :: ns) s'' :=
  h.append h'

/-- A token that does not cut. -/
lemma token {t : Token} (h : s.step t = (.inside, s')) : PassesOver s [.token t] s' := by
  intro rest
  simp [predicateCuts, h]

/-- A keyword that does not cut. -/
lemma spells {word : Keyword} (hn : n.spells word = true)
    (h : ∀ t : Token, t.kind = .keyword word → s.step t = (.inside, s')) : PassesOver s [n] s' := by
  cases n with
  | token t => exact token (h t (by simpa [Node.spells, Node.token?, Token.spells] using hn))
  | comment c => simp [Node.spells, Node.token?] at hn
  | query o b c => simp [Node.spells, Node.token?] at hn
  | list o b c => simp [Node.spells, Node.token?] at hn

/-- A node without a part in the structure of predicates. -/
lemma plain (hcomment : n.isComment = false)
    (h : ∀ t, n = .token t → s.step t = (.inside, { s with begun := true })) :
    PassesOver s [n] { s with begun := true } := by
  cases n with
  | token t => exact token (h t rfl)
  | comment c => simp [Node.isComment, Node.comment?] at hcomment
  | query o b c => exact fun rest => by simp [predicateCuts]
  | list o b c => exact fun rest => by simp [predicateCuts]

end PassesOver

/-- Nothing cuts between `CASE` and `END`, and the state is the same behind it. -/
lemma CaseBody.passesOver {body : List Node} (h : CaseBody body) (depth : Nat) (between : Bool) :
    PassesOver ⟨depth + 1, between, true⟩ body ⟨depth + 1, between, true⟩ := by
  induction h generalizing depth with
  | nil => exact .nil _
  | @node n ns hcomment hplain h ih =>
    refine (PassesOver.plain hcomment fun t ht => ?_).cons (ih depth)
    have hwords : t.spells .CASE = false ∧ t.spells .END = false := by
      simpa [ht, Node.spellsAny, Node.token?, Token.spellsAny] using hplain
    simp [PredicateState.step, hwords.1, hwords.2]
  | @case opening closing body ns hopening hbody hclosing h ihbody ih =>
    have hopen : PassesOver ⟨depth + 1, between, true⟩ [opening] ⟨depth + 2, between, true⟩ :=
      .spells hopening fun t ht => by simp [PredicateState.step, Token.spells, ht]
    have hclose : PassesOver ⟨depth + 2, between, true⟩ [closing] ⟨depth + 1, between, true⟩ :=
      .spells hclosing fun t ht => by simp [PredicateState.step, Token.spells, ht]
    exact hopen.cons ((ihbody (depth + 1)).append (hclose.cons (ih depth)))

/-- Nothing cuts in an operand, and no `BETWEEN` waits behind it.  The induction is along the
grammar, and the flag of the grammar is that of the machine: inside `CASE` it does not change, and
the `AND` of a `BETWEEN` takes it back. -/
lemma Operand.passesOver {between : Bool} {nodes : List Node} (h : Operand between nodes)
    (begun : Bool) :
    PassesOver ⟨0, between, begun⟩ nodes ⟨0, false, begun || !nodes.isEmpty⟩ := by
  induction h generalizing begun with
  | nil => simpa using PassesOver.nil _
  | @node between n ns hcomment hplain h ih =>
    have hn : PassesOver ⟨0, between, begun⟩ [n] ⟨0, between, true⟩ := by
      refine .plain hcomment fun t ht => ?_
      have hwords : t.spells .CASE = false ∧ t.spells .END = false ∧ t.spells .BETWEEN = false ∧
          t.spells .AND = false ∧ t.spells .OR = false := by
        simpa [ht, Node.spellsAny, Node.token?, Token.spellsAny] using hplain
      simp [PredicateState.step, hwords]
    simpa using hn.cons (ih true)
  | @case between opening closing body ns hopening hbody hclosing h ih =>
    have hopen : PassesOver ⟨0, between, begun⟩ [opening] ⟨1, between, true⟩ :=
      .spells hopening fun t ht => by simp [PredicateState.step, Token.spells, ht]
    have hclose : PassesOver ⟨1, between, true⟩ [closing] ⟨0, between, true⟩ :=
      .spells hclosing fun t ht => by simp [PredicateState.step, Token.spells, ht]
    simpa using hopen.cons ((hbody.passesOver 0 between).append (hclose.cons (ih true)))
  | @between n ns hn h ih =>
    have hword : PassesOver ⟨0, false, begun⟩ [n] ⟨0, true, true⟩ :=
      .spells hn fun t ht => by simp [PredicateState.step, Token.spells, ht]
    simpa using hword.cons (ih true)
  | @and n ns hn h ih =>
    have hword : PassesOver ⟨0, true, begun⟩ [n] ⟨0, false, true⟩ :=
      .spells hn fun t ht => by simp [PredicateState.step, Token.spells, ht]
    simpa using hword.cons (ih true)

lemma Node.isComment_of_spells {n : Node} {word : Keyword} (h : n.spells word = true) :
    n.isComment = false := by
  cases n with
  | comment c => simp [Node.spells, Node.token?] at h
  | token t => rfl
  | query o b c => rfl
  | list o b c => rfl

lemma CaseBody.isComment {body : List Node} (h : CaseBody body) :
    ∀ n ∈ body, n.isComment = false := by
  induction h with
  | nil => simp
  | node hcomment _ _ ih => exact List.forall_mem_cons.2 ⟨hcomment, ih⟩
  | case hopening _ hclosing _ ihbody ih =>
    exact List.forall_mem_cons.2 ⟨Node.isComment_of_spells hopening, List.forall_mem_append.2
      ⟨ihbody, List.forall_mem_cons.2 ⟨Node.isComment_of_spells hclosing, ih⟩⟩⟩

lemma Operand.isComment {between : Bool} {nodes : List Node} (h : Operand between nodes) :
    ∀ n ∈ nodes, n.isComment = false := by
  induction h with
  | nil => simp
  | node hcomment _ _ ih => exact List.forall_mem_cons.2 ⟨hcomment, ih⟩
  | case hopening hbody hclosing _ ih =>
    exact List.forall_mem_cons.2 ⟨Node.isComment_of_spells hopening, List.forall_mem_append.2
      ⟨hbody.isComment, List.forall_mem_cons.2 ⟨Node.isComment_of_spells hclosing, ih⟩⟩⟩
  | between hn _ ih => exact List.forall_mem_cons.2 ⟨Node.isComment_of_spells hn, ih⟩
  | and hn _ ih => exact List.forall_mem_cons.2 ⟨Node.isComment_of_spells hn, ih⟩

/-! ### Dividing a predicate -/

lemma PredicateOperand.passesOver (o : PredicateOperand) (begun : Bool) :
    PassesOver ⟨0, false, begun⟩ o.nodes ⟨0, false, true⟩ := by
  have hpasses := o.shape.passesOver begun
  have hne : o.nodes.isEmpty = false := by simpa using o.ne_nil
  rwa [hne, Bool.not_false, Bool.or_true] at hpasses

/-- A connective behind an operand cuts. -/
lemma Connective.predicateCuts_cons (c : Connective) (rest : List Node) :
    predicateCuts ⟨0, false, true⟩ (.token c.word :: rest) =
      (.before, .token c.word) :: predicateCuts ⟨0, false, true⟩ rest := by
  have hkind : c.word.kind = .keyword .AND ∨ c.word.kind = .keyword .OR := by
    simpa [Token.spellsAny, Token.spells] using c.connects
  have hstep : PredicateState.step ⟨0, false, true⟩ c.word = (.before, ⟨0, false, true⟩) := by
    rcases hkind with h | h <;> simp [PredicateState.step, Token.spells, h]
  rw [predicateCuts, hstep]

/-- Behind an operand, connectives and operands come out one by one. -/
lemma itemsFrom_connectedOperands (rest : List (Connective × PredicateOperand))
    {current : List Node} (hne : current ≠ [])
    (hlast : ∀ n ∈ current.getLast?, n.isComment = false) :
    itemsFrom current (predicateCuts ⟨0, false, true⟩ (connectedOperands rest)) =
      ⟨current, false⟩ :: rest.map fun r => ⟨.token r.1.word :: r.2.nodes, false⟩ := by
  induction rest generalizing current with
  | nil => simp [connectedOperands, predicateCuts, itemsFrom, openItem, hne]
  | cons r rest ih =>
    have hconnected : connectedOperands (r :: rest) =
        .token r.1.word :: (r.2.nodes ++ connectedOperands rest) := by
      simp [connectedOperands]
    have hitem : ∀ n ∈ (.token r.1.word :: r.2.nodes).getLast?, n.isComment = false := by
      intro n hn
      rcases List.mem_cons.1 (List.mem_of_getLast? hn) with rfl | hn
      · rfl
      · exact r.2.shape.isComment n hn
    rw [hconnected, r.1.predicateCuts_cons, itemsFrom_before hne hlast, r.2.passesOver true,
      itemsFrom_inside, List.singleton_append, ih (by simp) hitem, List.map_cons]

/-- **A predicate is divided as it was joined.**  The items are the operands, each but the first
behind its connective; the predicate is compound if there are several. -/
theorem splitItems_predicate {kind : ClauseKind} (hkind : kind.isPredicate = true)
    (first : PredicateOperand) (rest : List (Connective × PredicateOperand)) :
    splitItems kind (predicateOf first rest) =
        ⟨first.nodes, false⟩ :: rest.map (fun r => ⟨.token r.1.word :: r.2.nodes, false⟩) ∧
      (isCompound (predicateOf first rest) = true ↔ rest ≠ []) := by
  have hlast : ∀ n ∈ first.nodes.getLast?, n.isComment = false := fun n hn =>
    first.shape.isComment n (List.mem_of_getLast? hn)
  have hitems : splitPredicate (predicateOf first rest) =
      ⟨first.nodes, false⟩ :: rest.map fun r => ⟨.token r.1.word :: r.2.nodes, false⟩ := by
    calc splitPredicate (predicateOf first rest)
        = itemsFrom [] (predicateCuts ⟨0, false, false⟩
            (first.nodes ++ connectedOperands rest)) := rfl
      _ = itemsFrom first.nodes (predicateCuts ⟨0, false, true⟩ (connectedOperands rest)) := by
          rw [first.passesOver false, itemsFrom_inside, List.nil_append]
      _ = _ := itemsFrom_connectedOperands rest first.ne_nil hlast
  have hsplit : splitItems kind (predicateOf first rest) =
      splitPredicate (predicateOf first rest) := by
    cases kind <;> first | rfl | cases hkind
  refine ⟨hsplit.trans hitems, ?_⟩
  rw [isCompound_iff, hitems]
  cases rest <;> simp

/-- The predicate `x between 1 and 2 or case when y and z end`, which has two operands. -/
theorem splitItems_predicate_case_behind_between :
    ClauseKind.condition.isPredicate = true ∧
      ∃ (first second : PredicateOperand) (c : Connective),
        first.nodes = [.token ⟨.identifier, "x", 0⟩, .token ⟨.keyword .BETWEEN, "between", 2⟩,
          .token ⟨.number, "1", 10⟩, .token ⟨.keyword .AND, "and", 12⟩,
          .token ⟨.number, "2", 16⟩] ∧
        c.word = ⟨.keyword .OR, "or", 18⟩ ∧
        second.nodes = [.token ⟨.keyword .CASE, "case", 21⟩, .token ⟨.keyword .WHEN, "when", 26⟩,
          .token ⟨.identifier, "y", 31⟩, .token ⟨.keyword .AND, "and", 33⟩,
          .token ⟨.identifier, "z", 37⟩, .token ⟨.keyword .END, "end", 39⟩] ∧
        splitItems .condition (predicateOf first [(c, second)]) =
          [⟨first.nodes, false⟩, ⟨.token c.word :: second.nodes, false⟩] ∧
        isCompound (predicateOf first [(c, second)]) = true := by
  have hfirst : Operand false [.token ⟨.identifier, "x", 0⟩,
      .token ⟨.keyword .BETWEEN, "between", 2⟩, .token ⟨.number, "1", 10⟩,
      .token ⟨.keyword .AND, "and", 12⟩, .token ⟨.number, "2", 16⟩] :=
    .node rfl rfl (.between rfl (.node rfl rfl (.and rfl (.node rfl rfl .nil))))
  have hbody : CaseBody [.token ⟨.keyword .WHEN, "when", 26⟩, .token ⟨.identifier, "y", 31⟩,
      .token ⟨.keyword .AND, "and", 33⟩, .token ⟨.identifier, "z", 37⟩] :=
    .node rfl rfl (.node rfl rfl (.node rfl rfl (.node rfl rfl .nil)))
  have hsecond : Operand false [.token ⟨.keyword .CASE, "case", 21⟩,
      .token ⟨.keyword .WHEN, "when", 26⟩, .token ⟨.identifier, "y", 31⟩,
      .token ⟨.keyword .AND, "and", 33⟩, .token ⟨.identifier, "z", 37⟩,
      .token ⟨.keyword .END, "end", 39⟩] :=
    .case rfl hbody rfl .nil
  obtain ⟨hitems, hcompound⟩ := @splitItems_predicate .condition rfl
    ⟨_, by simp, hfirst⟩ [(⟨⟨.keyword .OR, "or", 18⟩, rfl⟩, ⟨_, by simp, hsecond⟩)]
  exact ⟨rfl, ⟨_, by simp, hfirst⟩, ⟨_, by simp, hsecond⟩, ⟨⟨.keyword .OR, "or", 18⟩, rfl⟩,
    rfl, rfl, rfl, hitems, hcompound.2 (by simp)⟩

end SqlInlay.Sql
