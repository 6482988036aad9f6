import SqlInlay.Proofs.Guarded.Tokens
import SqlInlay.Proofs.Sql.Entries

/-!
# Segmentation, by indices and counters

Dividing the nodes of a query: comments at the end of a clause or an item are taken off by the index
of the first one, the nodes in front of a join are looked up by their index, and open `CASE`s are
counted up and down.

* `takeTrailing_eq` — the index behind the last node that is no comment is one of the list, or that
  of its end.
* `fromCuts_eq` — the node in front is the last of those passed that are no comments, so its index
  is there whenever one is asked for.
* `predicateStep_eq` — an `END` is counted down only where a `CASE` is open.
* `turn_eq`, `clausesFrom_eq` — the clause at hand gives up the comments at its end each time that
  the next one starts.
* `nestFrom_eq` — groups are put together as they are closed; a parenthesis without a partner is a
  failure of the query and no trap.

**Cuts** are made of the nodes first and carried out afterwards, as two lists of the same length;
`itemsOf` takes that for granted, and `zip_cuts` is why it may.

The outcome is `parse_eq`: segmentation comes to an end without a trap.
-/

namespace SqlInlay.Guarded

open SqlInlay.Text SqlInlay.Sql

variable {α : Type}

/-! ## Comments at the end -/

/-- The place behind the last element that meets a condition; the start if none does. -/
def behindLast (p : α → Bool) (l : List α) : Nat :=
  l.length - (l.reverse.takeWhile (!p ·)).length

/-- The nodes without the comments at their end from the first one on a line of its own, and these
comments. -/
def takeTrailing (nodes : List Node) : Guarded (List Node × List Node) := do
  let start := behindLast (!·.isComment) nodes
  let run ← listFrom nodes start
  match run.findIdx? (·.isOwnLineComment) with
  | some i => return (← listTo nodes (start + i), ← listFrom nodes (start + i))
  | none => return (nodes, [])

section Trailing

variable (p : α → Bool) (l : List α)

lemma behindLast_le : behindLast p l ≤ l.length := Nat.sub_le _ _

/-- A list is cut in two behind the last element that meets a condition. -/
lemma cut_behindLast :
    (l.reverse.dropWhile (!p ·)).reverse ++ (l.reverse.takeWhile (!p ·)).reverse = l ∧
      (l.reverse.dropWhile (!p ·)).reverse.length = behindLast p l := by
  have hlist : (l.reverse.dropWhile (!p ·)).reverse ++ (l.reverse.takeWhile (!p ·)).reverse = l :=
    by rw [← List.reverse_append, List.takeWhile_append_dropWhile, List.reverse_reverse]
  have hlength := congrArg List.length hlist
  simp only [List.length_append, List.length_reverse] at hlength ⊢
  exact ⟨hlist, by rw [behindLast]; omega⟩

lemma drop_behindLast : l.drop (behindLast p l) = (l.reverse.takeWhile (!p ·)).reverse := by
  obtain ⟨hlist, hlength⟩ := cut_behindLast p l
  have hcut := congrArg (List.drop (behindLast p l)) hlist
  rwa [List.drop_left' hlength, eq_comm] at hcut

lemma take_behindLast : l.take (behindLast p l) = (l.reverse.dropWhile (!p ·)).reverse := by
  obtain ⟨hlist, hlength⟩ := cut_behindLast p l
  have hcut := congrArg (List.take (behindLast p l)) hlist
  rwa [List.take_left' hlength, eq_comm] at hcut

end Trailing

lemma takeTrailing_eq (nodes : List Node) :
    takeTrailing nodes = .ok (withoutTrailing nodes, trailingComments nodes) := by
  have hrun : (nodes.drop (behindLast (!·.isComment) nodes)) =
      (nodes.reverse.takeWhile Node.isComment).reverse := by
    simp only [drop_behindLast, Bool.not_not]
  have hcut := withoutTrailing_append nodes
  have htrailing : trailingComments nodes =
      (nodes.drop (behindLast (!·.isComment) nodes)).dropWhile (!·.isOwnLineComment) := by
    rw [trailingComments, hrun]
  have hle := behindLast_le (fun n : Node => !n.isComment) nodes
  rw [takeTrailing, listFrom_of_le hle, ok_bind]
  cases hfirst : (nodes.drop (behindLast (!·.isComment) nodes)).findIdx? (·.isOwnLineComment) with
  | none =>
    rw [List.findIdx?_eq_none_iff] at hfirst
    have hnone : trailingComments nodes = [] := by
      rw [htrailing, List.dropWhile_eq_nil_iff]
      exact fun n hn => by simp [hfirst n hn]
    rw [hnone, List.append_nil] at hcut
    rw [hcut, hnone]
    rfl
  | some i =>
    obtain ⟨hlt, hindex⟩ := List.findIdx?_eq_some_iff_findIdx_eq.1 hfirst
    rw [List.length_drop] at hlt
    have hdrop : nodes.drop (behindLast (!·.isComment) nodes + i) = trailingComments nodes := by
      simp only [htrailing, List.dropWhile_eq_drop_findIdx_not, Bool.not_not, hindex,
        List.drop_drop]
    have htake : nodes.take (behindLast (!·.isComment) nodes + i) = withoutTrailing nodes := by
      rw [← List.append_left_inj (trailingComments nodes), hcut, ← hdrop, List.take_append_drop]
    simp only
    rw [listTo_of_le (by omega), listFrom_of_le (by omega), hdrop, htake]
    rfl

/-! ## Items -/

/-- The items that cuts make of nodes, where `current` holds those of the item at hand. -/
def itemsFrom (current : List Node) : List (Cut × Node) → Guarded (List (Item Node))
  | [] => return openItem current
  | (.comma, _) :: rest => do
    let items ← itemsFrom [] rest
    return ⟨current, true⟩ :: items
  | (.before, n) :: rest => do
    let (kept, moved) ← takeTrailing current
    let items ← itemsFrom (moved ++ [n]) rest
    return openItem kept ++ items
  | (.inside, n) :: rest => itemsFrom (current ++ [n]) rest

/-- The items that cuts make of nodes; there has to be one for every node. -/
def itemsOf (nodes : List Node) (cuts : List Cut) : Guarded (List (Item Node)) :=
  if nodes.length = cuts.length then itemsFrom [] (cuts.zip nodes) else .error .assertion

/-- Commas cut. -/
def commaCuts (nodes : List Node) : List Cut :=
  nodes.map fun n => if n.isKind .comma then .comma else .inside

/-- The node in front of place `i` is one of the words that lead a join. -/
def followsLead (significant : List Node) (i : Nat) : Guarded Bool := do
  let before ← elementAt significant (← subtract i 1)
  return before.spellsAny joinLeads

/-- Cuts of tables, where `significant` are the nodes that are no comments and the next of them is
at place `i`. -/
def fromCuts (significant : List Node) (i : Nat) : List Node → Guarded (List Cut)
  | [] => return []
  | n :: ns => do
    if n.isComment then
      let cuts ← fromCuts significant i ns
      return .inside :: cuts
    else if n.isKind .comma then
      let cuts ← fromCuts significant (i + 1) ns
      return .comma :: cuts
    else if i = 0 then
      let cuts ← fromCuts significant (i + 1) ns
      return .inside :: cuts
    else
      let continued ← followsLead significant i
      let cuts ← fromCuts significant (i + 1) ns
      return (if !continued && opensJoin (significant.drop i) then .before else .inside) :: cuts

/-- What a token does in a predicate, the `CASE`s that it closes counted down. -/
def predicateStep (s : PredicateState) (t : Token) : Guarded (Cut × PredicateState) :=
  if !t.spells .CASE && t.spells .END && s.cases > 0 then do
    let cases ← subtract s.cases 1
    return (.inside, { s with begun := true, cases })
  else return s.step t

/-- Cuts of a predicate. -/
def predicateCuts (s : PredicateState) : List Node → Guarded (List Cut)
  | [] => return []
  | .token t :: ns => do
    let (cut, next) ← predicateStep s t
    let cuts ← predicateCuts next ns
    return cut :: cuts
  | .comment _ :: ns => do
    let cuts ← predicateCuts s ns
    return .inside :: cuts
  | _ :: ns => do
    let cuts ← predicateCuts { s with begun := true } ns
    return .inside :: cuts

/-- Nodes divided at commas. -/
def splitCommas (nodes : List Node) : Guarded (List (Item Node)) := itemsOf nodes (commaCuts nodes)

/-- A predicate divided at its connectives. -/
def splitPredicate (nodes : List Node) : Guarded (List (Item Node)) := do
  itemsOf nodes (← predicateCuts ⟨0, false, false⟩ nodes)

/-- The items of a clause. -/
def splitItems (kind : ClauseKind) (nodes : List Node) : Guarded (List (Item Node)) := do
  if kind.isCommaList then splitCommas nodes
  else if kind.isPredicate then splitPredicate nodes
  else if kind = .tables then itemsOf nodes (← fromCuts (nodes.filter (!·.isComment)) 0 nodes)
  else return openItem nodes

lemma itemsFrom_eq (current : List Node) (cuts : List (Cut × Node)) :
    itemsFrom current cuts = .ok (Sql.itemsFrom current cuts) := by
  induction cuts generalizing current with
  | nil => rfl
  | cons cut rest ih =>
    obtain ⟨cut, n⟩ := cut
    cases cut <;> simp only [itemsFrom, Sql.itemsFrom, takeTrailing_eq, ih, ok_bind, pure_eq_ok]

/-- Cuts and the nodes that they are made of are put together again. -/
lemma zip_cuts {nodes : List Node} {cuts : List (Cut × Node)} (h : cuts.map Prod.snd = nodes) :
    itemsOf nodes (cuts.map Prod.fst) = .ok (Sql.itemsOf cuts) := by
  have hlength : nodes.length = (cuts.map Prod.fst).length := by simp [← h]
  rw [itemsOf, if_pos hlength, itemsFrom_eq, ← h, ← List.unzip_fst, ← List.unzip_snd,
    List.zip_unzip, Sql.itemsOf]

lemma splitCommas_eq (nodes : List Node) : splitCommas nodes = .ok (Sql.splitCommas nodes) := by
  have hcuts : commaCuts nodes = (Sql.commaCuts nodes).map Prod.fst := by
    simp [commaCuts, Sql.commaCuts, Function.comp_def]
  rw [splitCommas, hcuts, zip_cuts (map_snd_commaCuts nodes), Sql.splitCommas]

section Tables

variable (pre ns : List Node)

lemma followsLead_eq (hpre : pre ≠ []) :
    followsLead (pre ++ ns) pre.length = .ok (pre.getLast?.any (·.spellsAny joinLeads)) := by
  have hpos := List.length_pos_of_ne_nil hpre
  rw [followsLead, subtract_of_le (by omega), ok_bind, elementAt_of_lt (by simp; omega), ok_bind,
    List.getElem_append_left (by omega), ← List.getLast_eq_getElem hpre,
    List.getLast?_eq_getLast_of_ne_nil hpre]
  rfl

/-- The node in front is the last of those passed that are no comments. -/
lemma fromCuts_eq :
    fromCuts (pre ++ ns.filter (!·.isComment)) pre.length ns =
      .ok ((Sql.fromCuts pre.getLast? ns).map Prod.fst) := by
  induction ns generalizing pre with
  | nil => rfl
  | cons n ns ih =>
    rw [fromCuts, Sql.fromCuts]
    by_cases hcomment : n.isComment = true
    · have hfilter : (n :: ns).filter (!·.isComment) = ns.filter (!·.isComment) := by
        simp [hcomment]
      rw [if_pos hcomment, if_pos hcomment, hfilter, ih]
      rfl
    · have hfilter : (n :: ns).filter (!·.isComment) = n :: ns.filter (!·.isComment) := by
        simp [hcomment]
      have hrest := ih (pre ++ [n])
      rw [List.append_assoc, List.singleton_append, List.length_append, List.length_singleton,
        List.getLast?_append_of_ne_nil _ (List.cons_ne_nil _ _), List.getLast?_singleton] at hrest
      rw [if_neg hcomment, if_neg hcomment, hfilter, hrest, List.drop_left]
      by_cases hcomma : n.isKind .comma = true
      · rw [if_pos hcomma, if_pos hcomma]
        rfl
      · rw [if_neg hcomma, if_neg hcomma]
        -- only behind some node is there one in front to look up
        rcases List.eq_nil_or_concat' pre with rfl | ⟨init, last, rfl⟩
        · rfl
        · have hlead := followsLead_eq (init ++ [last]) (n :: ns.filter (!·.isComment)) (by simp)
          rw [List.getLast?_append_of_ne_nil _ (List.cons_ne_nil _ _), List.getLast?_singleton]
            at hlead ⊢
          rw [if_neg (by simp), hlead]
          rfl

end Tables

lemma predicateStep_eq (s : PredicateState) (t : Token) :
    predicateStep s t = .ok (s.step t) := by
  unfold predicateStep
  split
  · rename_i h
    simp only [Bool.and_eq_true, Bool.not_eq_true', decide_eq_true_eq] at h
    obtain ⟨⟨hcase, hend⟩, hpos⟩ := h
    rw [subtract_of_le hpos, ok_bind, PredicateState.step, if_neg (by simp [hcase]),
      if_pos (by simp [hend, hpos])]
    rfl
  · rfl

lemma predicateCuts_eq (s : PredicateState) (ns : List Node) :
    predicateCuts s ns = .ok ((Sql.predicateCuts s ns).map Prod.fst) := by
  induction ns generalizing s with
  | nil => rfl
  | cons n ns ih =>
    cases n <;>
      simp only [predicateCuts, Sql.predicateCuts, predicateStep_eq, ih, ok_bind, pure_eq_ok,
        List.map_cons]

lemma splitPredicate_eq (nodes : List Node) :
    splitPredicate nodes = .ok (Sql.splitPredicate nodes) := by
  rw [splitPredicate, predicateCuts_eq, ok_bind, zip_cuts (map_snd_predicateCuts _ nodes),
    Sql.splitPredicate]

lemma splitItems_eq (kind : ClauseKind) (nodes : List Node) :
    splitItems kind nodes = .ok (Sql.splitItems kind nodes) := by
  have hcuts := fromCuts_eq [] nodes
  rw [List.nil_append, List.length_nil, List.getLast?_nil] at hcuts
  simp only [splitItems, Sql.splitItems, splitCommas_eq, splitPredicate_eq, hcuts, ok_bind,
    zip_cuts (map_snd_fromCuts none nodes)]
  split_ifs <;> rfl

/-! ## Clauses and statements -/

/-- What a clause comes to when the next one starts, and the next one. -/
def turn (c : RawClause) (kind : ClauseKind) (keywords : List Token) :
    Guarded (List RawClause × RawClause) := do
  let (kept, moved) ← takeTrailing c.nodes
  return (RawClause.toList { c with nodes := kept }, ⟨kind, keywords, commentsOf moved, []⟩)

/-- The clauses of some nodes, where `current` is the clause at hand, `before` the token in front
and `begun` says that something other than comments has been read. -/
def clausesFrom (current : RawClause) (before : Option Token) (begun : Bool) :
    List Node → Guarded (List RawClause)
  | [] => return current.toList
  | .token t :: ns =>
    match clauseHead? t before begun ns.head? with
    | some (kind, true) =>
      match ns with
      | .token u :: rest => do
        let (closed, next) ← turn current kind [t, u]
        let clauses ← clausesFrom next (some u) true rest
        return closed ++ clauses
      | rest => do
        let (closed, next) ← turn current kind [t]
        let clauses ← clausesFrom next (some t) true rest
        return closed ++ clauses
    | some (kind, false) => do
      let (closed, next) ← turn current kind [t]
      let clauses ← clausesFrom next (some t) true ns
      return closed ++ clauses
    | none => clausesFrom (current.push (.token t)) (some t) true ns
  | .comment c :: ns => clausesFrom (current.push (.comment c)) before begun ns
  | n :: ns => clausesFrom (current.push n) none true ns

/-- The construction that some nodes are, exactly. -/
def construction? (nodes : List Node) : Guarded (Option (Construction Node)) :=
  match nodes with
  | .token new :: rest =>
    match rest.getLast?, dottedName? rest.dropLast with
    | some (.list opening operands closing), some typeName =>
      if new.spells .NEW then do
        let arguments ← splitCommas (contentsOf operands)
        return some ⟨new, typeName, opening, arguments, closing⟩
      else return none
    | _, _ => return none
  | _ => return none

/-- The construction that the nodes of a clause are, where a clause may be one. -/
def projection? (dialect : Dialect) (kind : ClauseKind) (nodes : List Node) :
    Guarded (Option (Construction Node)) :=
  if kind = .select ∧ dialect = .jpql then construction? nodes else return none

/-- The body of a clause whose nodes are given. -/
def bodyOf (dialect : Dialect) (kind : ClauseKind) (nodes : List Node) : Guarded (Body Node) := do
  match ← projection? dialect kind nodes with
  | some construction => return .construction construction
  | none =>
    let items ← splitItems kind nodes
    return .items items

/-- The clause with its nodes divided. -/
def finish (dialect : Dialect) (c : RawClause) : Guarded (Clause Node) := do
  let (kept, moved) ← takeTrailing c.nodes
  let body ← bodyOf dialect c.kind kept
  return ⟨c.kind, c.keywords, c.leading, body, commentsOf moved⟩

/-- A statement of some nodes. -/
def statementOf (dialect : Dialect) (nodes : List Node) (terminated : Bool)
    (trailing : List Comment) : Guarded (Statement Node) := do
  let clauses ← clausesFrom .preamble none false nodes
  let finished ← clauses.mapM (finish dialect)
  return ⟨finished, terminated, trailing⟩

/-- The statements of some nodes, where `current` holds those of the statement at hand. -/
def statementsFrom (dialect : Dialect) (current : List Node) :
    List Node → Guarded (List (Statement Node))
  | [] =>
    if current.isEmpty then return []
    else do
      let statement ← statementOf dialect current false []
      return [statement]
  | n :: ns =>
    if n.isKind .semicolon then do
      let trailing := commentsOf (ns.takeWhile isInlineComment)
      let statement ← statementOf dialect current true trailing
      let statements ← statementsFrom dialect [] (ns.dropWhile isInlineComment)
      return statement :: statements
    else statementsFrom dialect (current ++ [n]) ns
termination_by nodes => nodes.length
decreasing_by
  · have := (List.dropWhile_sublist isInlineComment (l := ns)).length_le
    simp only [List.length_cons]
    omega
  · simp

/-- The script of some nodes. -/
def statementsOf (dialect : Dialect) (nodes : List Node) : Guarded Script :=
  statementsFrom dialect [] nodes

lemma turn_eq (c : RawClause) (kind : ClauseKind) (keywords : List Token) :
    turn c kind keywords = .ok (c.closed.toList, c.next kind keywords) := by
  rw [turn, takeTrailing_eq]
  rfl

lemma clausesFrom_eq (current : RawClause) (before : Option Token) (begun : Bool)
    (ns : List Node) :
    clausesFrom current before begun ns = .ok (Sql.clausesFrom current before begun ns) := by
  fun_induction Sql.clausesFrom current before begun ns <;>
    simp_all only [clausesFrom, turn_eq, ok_bind, pure_eq_ok]

lemma construction?_eq (nodes : List Node) :
    construction? nodes = .ok (Sql.construction? nodes) := by
  cases nodes with
  | nil => rfl
  | cons n rest =>
    cases n with
    | token new =>
      simp only [construction?, Sql.construction?, splitCommas_eq, ok_bind]
      cases dottedName? rest.dropLast with
      | none =>
        cases rest.getLast? with
        | none => rfl
        | some last => cases last <;> rfl
      | some typeName =>
        cases rest.getLast? with
        | none => rfl
        | some last =>
          cases last with
          | list opening operands closing => exact (apply_ite _ _ _ _).symm
          | _ => rfl
    | _ => rfl

lemma projection?_eq (dialect : Dialect) (kind : ClauseKind) (nodes : List Node) :
    projection? dialect kind nodes =
      .ok (if kind = .select ∧ dialect = .jpql then Sql.construction? nodes else none) := by
  rw [projection?, construction?_eq]
  exact (apply_ite _ _ _ _).symm

lemma finish_eq (dialect : Dialect) (c : RawClause) :
    finish dialect c = .ok (c.finish dialect) := by
  simp only [finish, bodyOf, takeTrailing_eq, ok_bind, projection?_eq, splitItems_eq,
    RawClause.finish]
  cases (if c.kind = .select ∧ dialect = .jpql then
    Sql.construction? (withoutTrailing c.nodes) else none) <;> rfl

lemma statementOf_eq (dialect : Dialect) (nodes : List Node) (terminated : Bool)
    (trailing : List Comment) :
    statementOf dialect nodes terminated trailing =
      .ok (Sql.statementOf dialect nodes terminated trailing) := by
  have hfinish : finish dialect = fun c => pure (c.finish dialect) :=
    funext fun c => finish_eq dialect c
  rw [statementOf, clausesFrom_eq, ok_bind, hfinish, List.mapM_pure]
  rfl

lemma statementsOf_eq (dialect : Dialect) (nodes : List Node) :
    statementsOf dialect nodes = .ok (Sql.statementsOf dialect nodes) := by
  have hfrom : ∀ current nodes,
      statementsFrom dialect current nodes = .ok (Sql.statementsFrom dialect current nodes) := by
    intro current nodes
    fun_induction Sql.statementsFrom dialect current nodes with
    | case1 current hempty => rw [statementsFrom, if_pos hempty, pure_eq_ok]
    | case2 current hempty =>
      rw [statementsFrom, if_neg hempty, statementOf_eq]
      rfl
    | case3 current n ns hsemicolon ih =>
      rw [statementsFrom, if_pos hsemicolon]
      simp only [statementOf_eq, ih, ok_bind, pure_eq_ok]
    | case4 current n ns hsemicolon ih => rw [statementsFrom, if_neg hsemicolon, ih]
  exact hfrom [] nodes

/-! ## Nesting -/

/-- The group of some nodes between parentheses. -/
def groupOf (dialect : Dialect) (opening : Token) (nodes : List Node) (closing : Token) :
    Guarded Node :=
  if (nodes.find? (!·.isComment)).any (·.spellsAny [.SELECT, .WITH]) then do
    let script ← statementsOf dialect nodes
    return .query opening script closing
  else do
    let operands ← splitPredicate nodes
    return .list opening operands closing

/-- The nodes of some tokens, as `Sql.nestFrom` reads them. -/
def nestFrom (dialect : Dialect) (fresh : Bool) (done : List Node) (frames : List Frame) :
    List Token → Guarded (Except Failure (List Node))
  | [] =>
    match frames with
    | [] => return .ok done.reverse
    | frame :: _ => return .error (.structural frame.opening.offset .unclosedOpening)
  | t :: ts =>
    match t.kind with
    | .blank => nestFrom dialect (fresh || '\n' ∈ t.text) done frames ts
    | .openParen => nestFrom dialect false [] (⟨t, done⟩ :: frames) ts
    | .closeParen =>
      match frames with
      | [] => return .error (.structural t.offset .unmatchedClosing)
      | frame :: outer => do
        let group ← groupOf dialect frame.opening done.reverse t
        nestFrom dialect false (group :: frame.outer) outer ts
    | .lineComment | .blockComment =>
      nestFrom dialect false (.comment ⟨t, fresh⟩ :: done) frames ts
    | _ => nestFrom dialect false (.token t :: done) frames ts

/-- The script of some tokens. -/
def segment (dialect : Dialect) (tokens : List Token) : Guarded (Except Failure Script) := do
  match ← nestFrom dialect true [] [] tokens with
  | .error failure => return .error failure
  | .ok nodes =>
    let script ← statementsOf dialect nodes
    return .ok script

/-- The script of a query text. -/
def parse (query : Text) (dialect : Dialect) : Guarded (Except Failure Script) := do
  match ← tokenize query with
  | .error failure => return .error failure
  | .ok tokens => segment dialect tokens

lemma groupOf_eq (dialect : Dialect) (opening : Token) (nodes : List Node) (closing : Token) :
    groupOf dialect opening nodes closing = .ok (Sql.groupOf dialect opening nodes closing) := by
  simp only [groupOf, Sql.groupOf, statementsOf_eq, splitPredicate_eq, ok_bind, pure_eq_ok]
  split <;> rfl

lemma nestFrom_eq (dialect : Dialect) (fresh : Bool) (done : List Node) (frames : List Frame)
    (ts : List Token) :
    nestFrom dialect fresh done frames ts = .ok (Sql.nestFrom dialect fresh done frames ts) := by
  fun_induction Sql.nestFrom dialect fresh done frames ts with
  | case6 fresh done t ts hclose frame outer group ih =>
    simp only [nestFrom, hclose, groupOf_eq, ok_bind]
    exact ih
  | _ => simp_all [nestFrom]

lemma segment_eq (dialect : Dialect) (tokens : List Token) :
    segment dialect tokens = .ok (Sql.segment dialect tokens) := by
  simp only [segment, Sql.segment, nestFrom_eq, statementsOf_eq, ok_bind]
  cases Sql.nestFrom dialect true [] [] tokens <;> rfl

/-- Segmentation comes to an end without a trap, and with what `Sql.parse` has. -/
lemma parse_eq (query : Text) (dialect : Dialect) :
    parse query dialect = .ok (Sql.parse query dialect) := by
  simp only [parse, Sql.parse, segment_eq, tokenize_eq, ok_bind]
  cases Sql.tokenize query <;> rfl

end SqlInlay.Guarded
