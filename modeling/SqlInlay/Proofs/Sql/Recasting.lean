import SqlInlay.Proofs.Sql.Divisions
import SqlInlay.Sql.Layout

/-!
# Other tokens in the same places

When do two queries have the same layout?  Not only when they are equal: keywords may be in another
case, blanks may be others, and a layout of a query is another query again.  In all these cases each
token of the one query stands for one token of the other, and what layout asks of the two is the
same.  A `Recasting` puts another token in the place of each token: one of the same kind, with the
same text or, if it is a keyword, with the same letters.  Offsets may be anything.  `Node.recast`
and its companions do so all over a script.

**Naturality.**  Segmentation looks at kinds and letters only, so recasting goes through it: every
function of it, applied to recast nodes, gives what it gave before, recast.  The lemmas are called
`…_recast` after the functions and build on each other as these do.

* `itemsFrom_recast`, `splitItems_recast` — items, for all three ways of dividing a body.
* `clausesFrom_recast`, `finish_recast` — clauses, with constructions.
* `statementsOf_recast`, `nestLeaves_recast` — statements and groups.  The script of a whole query
  is recast by these two (`segment_map`).

**Questions of layout.**  The same holds of the few questions that layout asks of nodes: whether
there are comments in them, whether an item is a join, what is left without the comments at the end.
What layout does beyond that depends on traces and widths, for which recasting is not enough; see
`Agrees`.
-/

namespace SqlInlay.Sql

/-- Another token for each token, of the same kind and letters, and of the same text where it is no
keyword. -/
structure Recasting where
  toFun : Token → Token
  kind_eq : ∀ t, (toFun t).kind = t.kind
  letters_eq : ∀ t, (toFun t).text.asciiUpper = t.text.asciiUpper
  text_eq : ∀ t, t.isKeyword = false → (toFun t).text = t.text

namespace Recasting

instance : CoeFun Recasting fun _ => Token → Token := ⟨toFun⟩

variable (f : Recasting) (t : Token)

@[simp] lemma kind : (f t).kind = t.kind := f.kind_eq t

@[simp] lemma spells (word : Keyword) : (f t).spells word = t.spells word := by
  simp [Token.spells]

@[simp] lemma spellsAny (words : List Keyword) : (f t).spellsAny words = t.spellsAny words := by
  have hspells : (f t).spells = t.spells := funext fun word => f.spells t word
  rw [Token.spellsAny, hspells, Token.spellsAny]

@[simp] lemma isComment : (f t).isComment = t.isComment := by simp [Token.isComment]

@[simp] lemma reads (word : Text) : (f t).reads word = t.reads word := by
  simp [Token.reads, Text.sameLetters, f.letters_eq]

end Recasting

/-- A comment with another token. -/
def Comment.recast (f : Recasting) (c : Comment) : Comment := ⟨f c.token, c.ownLine⟩

/-- A stroke with another token; marks stay as they are. -/
def Stroke.recast (f : Recasting) : Stroke → Stroke
  | .write t => .write (f t)
  | .glue t => .glue (f t)
  | .mark kind text => .mark kind text
  | .comment c => .comment (c.recast f)

namespace Stroke

variable (f : Recasting)

@[simp] lemma recast_write (t : Token) : (write t).recast f = write (f t) := rfl

@[simp] lemma recast_glue (t : Token) : (glue t).recast f = glue (f t) := rfl

@[simp] lemma recast_comment (c : Comment) : (comment c).recast f = comment (c.recast f) := rfl

@[simp] lemma kind_recast (s : Stroke) : (s.recast f).kind = s.kind := by
  cases s <;> simp [recast, kind, Comment.recast]

end Stroke

section Definitions

variable (f : Recasting)

mutual

/-- A node with other tokens. -/
def Node.recast : Node → Node
  | .token t => .token (f t)
  | .comment c => .comment (c.recast f)
  | .query opening script closing => .query (f opening) (recastStatements script) (f closing)
  | .list opening operands closing => .list (f opening) (recastItems operands) (f closing)

/-- Nodes with other tokens. -/
def recastNodes : List Node → List Node
  | [] => []
  | n :: ns => n.recast :: recastNodes ns

/-- Items with other tokens. -/
def recastItems : List (Item Node) → List (Item Node)
  | [] => []
  | ⟨nodes, comma⟩ :: is => ⟨recastNodes nodes, comma⟩ :: recastItems is

/-- The body of a clause with other tokens. -/
def recastBody : Body Node → Body Node
  | .items is => .items (recastItems is)
  | .construction ⟨new, typeName, opening, arguments, closing⟩ =>
    .construction ⟨f new, typeName.map f, f opening, recastItems arguments, f closing⟩

/-- Clauses with other tokens. -/
def recastClauses : List (Clause Node) → List (Clause Node)
  | [] => []
  | ⟨kind, keywords, leading, body, trailing⟩ :: cs =>
    ⟨kind, keywords.map f, leading.map (·.recast f), recastBody body,
      trailing.map (·.recast f)⟩ :: recastClauses cs

/-- Statements with other tokens. -/
def recastStatements : List (Statement Node) → List (Statement Node)
  | [] => []
  | ⟨clauses, terminated, trailing⟩ :: ss =>
    ⟨recastClauses clauses, terminated, trailing.map (·.recast f)⟩ :: recastStatements ss

end

end Definitions

variable {f : Recasting}

lemma recastNodes_eq_map (ns : List Node) : recastNodes f ns = ns.map (·.recast f) := by
  induction ns with
  | nil => simp [recastNodes]
  | cons n ns ih => simp [recastNodes, ih]

@[simp] lemma recastNodes_append (ns ms : List Node) :
    recastNodes f (ns ++ ms) = recastNodes f ns ++ recastNodes f ms := by
  simp [recastNodes_eq_map]

@[simp] lemma recastItems_append (is js : List (Item Node)) :
    recastItems f (is ++ js) = recastItems f is ++ recastItems f js := by
  induction is with
  | nil => simp [recastItems]
  | cons i is ih => simp [recastItems, ih]

@[simp] lemma recastNodes_isEmpty (ns : List Node) : (recastNodes f ns).isEmpty = ns.isEmpty := by
  cases ns <;> simp [recastNodes]

@[simp] lemma recastItems_isEmpty (is : List (Item Node)) :
    (recastItems f is).isEmpty = is.isEmpty := by
  cases is <;> simp [recastItems]

@[simp] lemma length_recastItems (is : List (Item Node)) :
    (recastItems f is).length = is.length := by
  induction is with
  | nil => simp [recastItems]
  | cons i is ih => simp [recastItems, ih]

/-! ## Single nodes

Everything that is asked of a single node is asked of its token, and all of these are simplification
rules: the questions are told apart further up by what they are asked of.
-/

namespace Node

variable (n : Node)

@[simp] lemma token?_recast : (n.recast f).token? = n.token?.map f := by
  cases n <;> simp [recast, token?]

@[simp] lemma comment?_recast : (n.recast f).comment? = n.comment?.map (·.recast f) := by
  cases n <;> simp [recast, comment?]

@[simp] lemma isComment_recast : (n.recast f).isComment = n.isComment := by
  simp [isComment]

@[simp] lemma isOwnLineComment_recast : (n.recast f).isOwnLineComment = n.isOwnLineComment := by
  cases n <;> simp [recast, isOwnLineComment, comment?, Comment.recast]

@[simp] lemma isKind_recast (kind : Kind) : (n.recast f).isKind kind = n.isKind kind := by
  cases n <;> simp [recast, isKind, token?]

@[simp] lemma spells_recast (word : Keyword) : (n.recast f).spells word = n.spells word := by
  cases n <;> simp [recast, spells, token?]

@[simp] lemma spellsAny_recast (words : List Keyword) :
    (n.recast f).spellsAny words = n.spellsAny words := by
  cases n <;> simp [recast, spellsAny, token?]

@[simp] lemma isQuery_recast : (n.recast f).isQuery = n.isQuery := by
  cases n <;> simp [recast, isQuery]

@[simp] lemma isInlineComment_recast : isInlineComment (n.recast f) = isInlineComment n := by
  simp [isInlineComment]

end Node

/-! ## Items -/

lemma trailingComments_recast (ns : List Node) :
    trailingComments (recastNodes f ns) = recastNodes f (trailingComments ns) := by
  have hcomment : Node.isComment ∘ Node.recast f = Node.isComment := by funext n; simp
  have hline : ((!·.isOwnLineComment) ∘ Node.recast f) = fun n : Node => !n.isOwnLineComment := by
    funext n; simp
  simp only [trailingComments, recastNodes_eq_map, ← List.map_reverse, List.takeWhile_map,
    List.dropWhile_map, hcomment, hline]

lemma withoutTrailing_recast (ns : List Node) :
    withoutTrailing (recastNodes f ns) = recastNodes f (withoutTrailing ns) := by
  rw [withoutTrailing, trailingComments_recast]
  simp [withoutTrailing, recastNodes_eq_map, List.map_take]

lemma commentsOf_recast (ns : List Node) :
    commentsOf (recastNodes f ns) = (commentsOf ns).map (·.recast f) := by
  simp [commentsOf, recastNodes_eq_map, List.filterMap_map, List.map_filterMap]

lemma openItem_recast (ns : List Node) :
    openItem (recastNodes f ns) = recastItems f (openItem ns) := by
  cases ns <;> simp [openItem, recastNodes, recastItems]

/-- Cuts with other tokens. -/
def recastCuts (f : Recasting) (cuts : List (Cut × Node)) : List (Cut × Node) :=
  cuts.map fun cut => (cut.1, cut.2.recast f)

lemma itemsFrom_recast (current : List Node) (cuts : List (Cut × Node)) :
    itemsFrom (recastNodes f current) (recastCuts f cuts) =
      recastItems f (itemsFrom current cuts) := by
  have hconcat : ∀ (ns : List Node) (n : Node),
      recastNodes f ns ++ [n.recast f] = recastNodes f (ns ++ [n]) := by
    intro ns n
    simp [recastNodes]
  induction cuts generalizing current with
  | nil => exact openItem_recast current
  | cons cut cuts ih =>
    obtain ⟨cut, n⟩ := cut
    have hnil := ih []
    simp only [recastNodes] at hnil
    simp only [recastCuts, List.map_cons] at ih hnil ⊢
    cases cut with
    | comma => simp [itemsFrom, recastItems, hnil]
    | before =>
      rw [itemsFrom, withoutTrailing_recast, trailingComments_recast, openItem_recast, hconcat,
        ih, ← recastItems_append, itemsFrom]
    | inside => rw [itemsFrom, hconcat, ih, itemsFrom]

lemma itemsOf_recast (cuts : List (Cut × Node)) :
    itemsOf (recastCuts f cuts) = recastItems f (itemsOf cuts) :=
  itemsFrom_recast (f := f) [] cuts

lemma commaCuts_recast (ns : List Node) :
    commaCuts (recastNodes f ns) = recastCuts f (commaCuts ns) := by
  simp [commaCuts, recastCuts, recastNodes_eq_map]

lemma opensJoin_recast (ns : List Node) : opensJoin (recastNodes f ns) = opensJoin ns := by
  induction ns with
  | nil => rfl
  | cons n ns ih => simp [recastNodes, opensJoin, ih]

lemma filter_recastNodes {p : Node → Bool} (hp : ∀ n, p (n.recast f) = p n) (ns : List Node) :
    (recastNodes f ns).filter p = recastNodes f (ns.filter p) := by
  have hcomp : p ∘ Node.recast f = p := funext hp
  rw [recastNodes_eq_map, List.filter_map, hcomp, recastNodes_eq_map]

lemma fromCuts_recast (before : Option Node) (ns : List Node) :
    fromCuts (before.map (·.recast f)) (recastNodes f ns) = recastCuts f (fromCuts before ns) := by
  induction ns generalizing before with
  | nil => rfl
  | cons n ns ih =>
    have hnext := ih (some n)
    rw [Option.map_some] at hnext
    have hjoin : opensJoin (n.recast f :: (recastNodes f ns).filter (!·.isComment)) =
        opensJoin (n :: ns.filter (!·.isComment)) := by
      rw [filter_recastNodes (by simp)]
      exact opensJoin_recast (n :: ns.filter (!·.isComment))
    have hbefore : (before.map (·.recast f)).any (!·.spellsAny joinLeads) =
        before.any (!·.spellsAny joinLeads) := by
      cases before <;> simp
    simp only [recastNodes, fromCuts, Node.isComment_recast, Node.isKind_recast, hjoin, hbefore]
    split
    · simp [recastCuts, ih before]
    · split <;> simp [recastCuts, hnext]

lemma predicateCuts_recast (s : PredicateState) (ns : List Node) :
    predicateCuts s (recastNodes f ns) = recastCuts f (predicateCuts s ns) := by
  have hstep : ∀ (s : PredicateState) (t : Token), s.step (f t) = s.step t := by
    intro s t
    simp [PredicateState.step]
  induction ns generalizing s with
  | nil => rfl
  | cons n ns ih =>
    cases n <;> simp [recastNodes, Node.recast, predicateCuts, recastCuts, hstep] <;>
      exact ih _

lemma splitCommas_recast (ns : List Node) :
    splitCommas (recastNodes f ns) = recastItems f (splitCommas ns) := by
  rw [splitCommas, commaCuts_recast, itemsOf_recast, splitCommas]

lemma splitPredicate_recast (ns : List Node) :
    splitPredicate (recastNodes f ns) = recastItems f (splitPredicate ns) := by
  rw [splitPredicate, predicateCuts_recast, itemsOf_recast, splitPredicate]

lemma splitItems_recast (kind : ClauseKind) (ns : List Node) :
    splitItems kind (recastNodes f ns) = recastItems f (splitItems kind ns) := by
  unfold splitItems
  split
  · exact splitCommas_recast ns
  · split
    · exact splitPredicate_recast ns
    · split
      · rw [← Option.map_none (f := Node.recast f), fromCuts_recast, itemsOf_recast]
        rfl
      · exact openItem_recast ns

lemma contentsOf_recast (is : List (Item Node)) :
    contentsOf (recastItems f is) = recastNodes f (contentsOf is) := by
  induction is with
  | nil => rfl
  | cons i is ih =>
    rw [contentsOf] at ih ⊢
    simp [recastItems, ih, contentsOf]

/-! ## Clauses -/

/-- A clause with other tokens. -/
def RawClause.recast (f : Recasting) (c : RawClause) : RawClause :=
  ⟨c.kind, c.keywords.map f, c.leading.map (·.recast f), recastNodes f c.nodes⟩

namespace RawClause

variable (c : RawClause)

lemma toList_recast : (c.recast f).toList = c.toList.map (·.recast f) := by
  have hempty : (c.recast f).isEmpty = c.isEmpty := by simp [isEmpty, recast]
  unfold toList
  rw [hempty]
  split <;> rfl

lemma closed_recast : (c.recast f).closed = c.closed.recast f := by
  simp [closed, recast, withoutTrailing_recast]

lemma next_recast (kind : ClauseKind) (keywords : List Token) :
    (c.recast f).next kind (keywords.map f) = (c.next kind keywords).recast f := by
  simp [next, recast, trailingComments_recast, commentsOf_recast, recastNodes]

lemma push_recast (n : Node) : (c.recast f).push (n.recast f) = (c.push n).recast f := by
  simp [push, recast, recastNodes]

end RawClause

lemma clauseHead?_recast (t : Token) (before : Option Token) (begun : Bool)
    (after : Option Node) :
    clauseHead? (f t) (before.map f) begun (after.map (·.recast f)) =
      clauseHead? t before begun after := by
  have hbefore : ∀ words : List Text, (before.map f).any (fun b => words.any b.reads) =
      before.any fun b => words.any b.reads := by
    intro words
    cases before with
    | none => rfl
    | some b =>
      have hreads : (f b).reads = b.reads := funext fun word => f.reads b word
      rw [Option.map_some, Option.any_some, hreads, Option.any_some]
  have hafter : ∀ words : List Keyword, (after.map (·.recast f)).any (·.spellsAny words) =
      after.any (·.spellsAny words) := by
    intro words
    cases after <;> simp
  simp only [clauseHead?, Recasting.kind, hbefore, hafter]

lemma clausesFrom_recast (current : RawClause) (before : Option Token) (begun : Bool)
    (ns : List Node) :
    clausesFrom (current.recast f) (before.map f) begun (recastNodes f ns) =
      (clausesFrom current before begun ns).map (·.recast f) := by
  have hhead : ∀ (t : Token) (before : Option Token) (begun : Bool) (ns : List Node),
      clauseHead? (f t) (before.map f) begun (recastNodes f ns).head? =
        clauseHead? t before begun ns.head? := by
    intro t before begun ns
    have h := clauseHead?_recast (f := f) t before begun ns.head?
    cases ns <;> simpa [recastNodes] using h
  have hstart : ∀ (current : RawClause) (kind : ClauseKind) (keywords : List Token)
      (u : Token) (rest : List Node),
      clausesFrom ((current.next kind keywords).recast f) (some (f u)) true (recastNodes f rest) =
        (clausesFrom (current.next kind keywords) (some u) true rest).map (·.recast f) →
      (current.recast f).closed.toList ++ clausesFrom ((current.recast f).next kind
        (keywords.map f)) (some (f u)) true (recastNodes f rest) =
        (current.closed.toList ++ clausesFrom (current.next kind keywords) (some u) true
          rest).map (·.recast f) := by
    intro current kind keywords u rest h
    rw [RawClause.closed_recast, RawClause.toList_recast, RawClause.next_recast, h, List.map_append]
  fun_induction clausesFrom current before begun ns with
  | case1 current => simp [recastNodes, clausesFrom, RawClause.toList_recast]
  | case2 current before begun t kind u rest hclause ih =>
    have hclause' := hhead t before begun (.token u :: rest)
    rw [hclause] at hclause'
    simp only [recastNodes, Node.recast] at hclause' ⊢
    simp only [clausesFrom, hclause']
    exact hstart current kind [t, u] u rest ih
  | case3 current before begun t kind rest hnot hclause ih =>
    -- a head of two keywords has the second one behind it
    obtain ⟨u, hu, -⟩ := (isClauseWord_of_clauseHead? hclause).2 rfl
    obtain ⟨rest', rfl⟩ := List.head?_eq_some_iff.1 hu
    exact absurd rfl (hnot u rest')
  | case4 current before begun t ns kind hclause ih =>
    simp only [recastNodes, Node.recast, clausesFrom, hhead, hclause]
    exact hstart current kind [t] t ns ih
  | case5 current before begun t ns hclause ih =>
    simp only [recastNodes, Node.recast, clausesFrom, hhead, hclause]
    rw [← ih, ← RawClause.push_recast]
    rfl
  | case6 current before begun c ns ih =>
    simp only [recastNodes, Node.recast, clausesFrom]
    rw [← ih, ← RawClause.push_recast]
    rfl
  | case7 current before begun n ns h₁ h₂ ih =>
    rw [← RawClause.push_recast] at ih
    cases n with
    | token t => exact absurd rfl (h₁ t)
    | comment c => exact absurd rfl (h₂ c)
    | query o s c =>
      simp only [recastNodes, Node.recast, clausesFrom] at ih ⊢
      exact ih
    | list o is c =>
      simp only [recastNodes, Node.recast, clausesFrom] at ih ⊢
      exact ih

lemma dottedName?_recast (ns : List Node) :
    dottedName? (recastNodes f ns) = (dottedName? ns).map (·.map f) := by
  fun_induction dottedName? ns with
  | case1 t ht => simp [recastNodes, Node.recast, dottedName?, ht]
  | case2 t ht => simp [recastNodes, Node.recast, dottedName?, ht]
  | case3 t d ns hkinds ih =>
    simp [recastNodes, Node.recast, dottedName?, hkinds, ih, Function.comp_def]
  | case4 t d ns hkinds => simp [recastNodes, Node.recast, dottedName?, hkinds]
  | case5 ns h₁ h₂ =>
    rcases ns with _ | ⟨n, _ | ⟨m, ns⟩⟩
    · rfl
    · cases n with
      | token t => exact absurd rfl (h₁ t)
      | comment c => rfl
      | query o s c => rfl
      | list o is c => rfl
    · cases n with
      | token t =>
        cases m with
        | token d => exact absurd rfl (h₂ t d ns)
        | comment c => rfl
        | query o s c => rfl
        | list o is c => rfl
      | comment c => rfl
      | query o s c => rfl
      | list o is c => rfl

/-- A construction with other tokens. -/
def recastConstruction (f : Recasting) : Construction Node → Construction Node
  | ⟨new, typeName, opening, arguments, closing⟩ =>
    ⟨f new, typeName.map f, f opening, recastItems f arguments, f closing⟩

lemma construction?_recast (ns : List Node) :
    construction? (recastNodes f ns) = (construction? ns).map (recastConstruction f) := by
  rcases ns with _ | ⟨n, rest⟩
  · rfl
  · cases n with
    | comment c => rfl
    | query o s c => rfl
    | list o is c => rfl
    | token new =>
      have hlast : (recastNodes f rest).getLast? = rest.getLast?.map (·.recast f) := by
        rw [recastNodes_eq_map, List.getLast?_map]
      have hinit : (recastNodes f rest).dropLast = recastNodes f rest.dropLast := by
        rw [recastNodes_eq_map, ← List.map_dropLast, recastNodes_eq_map]
      have hnew : (Node.token (f new)).spells .NEW = (Node.token new).spells .NEW :=
        Node.spells_recast (f := f) (.token new) .NEW
      simp only [recastNodes, Node.recast, construction?, hlast, hinit, dottedName?_recast]
      rcases rest.getLast? with _ | last
      · rfl
      · cases last with
        | token t => rfl
        | comment c => rfl
        | query o s c => rfl
        | list opening operands closing =>
          rcases dottedName? rest.dropLast with _ | name
          · rfl
          · simp only [Option.map_some, Node.recast, Recasting.spells, contentsOf_recast,
              splitCommas_recast]
            split <;> rfl

lemma finish_recast (dialect : Dialect) (c : RawClause) :
    [(c.recast f).finish dialect] = recastClauses f [c.finish dialect] := by
  have hbody : ((c.recast f).finish dialect).body = recastBody f (c.finish dialect).body := by
    simp only [RawClause.finish, RawClause.recast, withoutTrailing_recast, construction?_recast,
      splitItems_recast]
    by_cases hselect : c.kind = .select ∧ dialect = .jpql
    · simp only [if_pos hselect]
      cases construction? (withoutTrailing c.nodes) <;> rfl
    · simp only [if_neg hselect, recastBody]
  rw [recastClauses, recastClauses, ← hbody]
  simp [RawClause.finish, RawClause.recast, trailingComments_recast, commentsOf_recast]

lemma finishAll_recast (dialect : Dialect) (cs : List RawClause) :
    (cs.map (·.recast f)).map (·.finish dialect) =
      recastClauses f (cs.map (·.finish dialect)) := by
  induction cs with
  | nil => rfl
  | cons c cs ih =>
    have hc := finish_recast (f := f) dialect c
    simp only [recastClauses, List.cons.injEq, and_true] at hc
    simp only [List.map_cons, recastClauses, hc, ih]

/-! ## Statements and groups -/

lemma statementsFrom_recast (dialect : Dialect) (current ns : List Node) :
    statementsFrom dialect (recastNodes f current) (recastNodes f ns) =
      recastStatements f (statementsFrom dialect current ns) := by
  have hclauses : ∀ ns : List Node,
      (clausesFrom .preamble none false (recastNodes f ns)).map (·.finish dialect) =
        recastClauses f ((clausesFrom .preamble none false ns).map (·.finish dialect)) := by
    intro ns
    rw [← finishAll_recast, ← clausesFrom_recast]
    rfl
  have hinline : isInlineComment ∘ Node.recast f = isInlineComment := by
    funext n
    exact n.isInlineComment_recast
  fun_induction statementsFrom dialect current ns with
  | case1 current hempty =>
    simp [recastNodes, statementsFrom, hempty, recastStatements]
  | case2 current hne =>
    simp [recastNodes, statementsFrom, hne, recastStatements, statementOf, hclauses]
  | case3 current n ns hsemicolon ih =>
    have htake : (recastNodes f ns).takeWhile isInlineComment =
        recastNodes f (ns.takeWhile isInlineComment) := by
      rw [recastNodes_eq_map, List.takeWhile_map, hinline, recastNodes_eq_map]
    have hdrop : (recastNodes f ns).dropWhile isInlineComment =
        recastNodes f (ns.dropWhile isInlineComment) := by
      rw [recastNodes_eq_map, List.dropWhile_map, hinline, recastNodes_eq_map]
    have hnil : recastNodes f [] = [] := rfl
    rw [hnil] at ih
    rw [recastNodes, statementsFrom, if_pos (by rw [Node.isKind_recast, hsemicolon]), htake,
      hdrop, ih, commentsOf_recast, recastStatements, statementOf, hclauses]
    rfl
  | case4 current n ns hsemicolon ih =>
    have hconcat : recastNodes f current ++ [n.recast f] = recastNodes f (current ++ [n]) := by
      simp [recastNodes]
    rw [recastNodes, statementsFrom, if_neg (by rw [Node.isKind_recast]; exact hsemicolon), hconcat,
      ih]

/-- **Scripts are recast with their nodes.**  Dividing nodes reads kinds and keywords, which a
recasting keeps, so it makes no difference which of the two is done first. -/
lemma statementsOf_recast (dialect : Dialect) (ns : List Node) :
    statementsOf dialect (recastNodes f ns) = recastStatements f (statementsOf dialect ns) :=
  statementsFrom_recast dialect [] ns

lemma groupOf_recast (dialect : Dialect) (opening : Token) (ns : List Node) (closing : Token) :
    groupOf dialect (f opening) (recastNodes f ns) (f closing) =
      (groupOf dialect opening ns closing).recast f := by
  have hquery : ((recastNodes f ns).find? (!·.isComment)).any (·.spellsAny [.SELECT, .WITH]) =
      (ns.find? (!·.isComment)).any (·.spellsAny [.SELECT, .WITH]) := by
    have hcomment : ((!·.isComment) ∘ Node.recast f) = fun n : Node => !n.isComment := by
      funext n; simp
    rw [recastNodes_eq_map, List.find?_map, hcomment]
    cases ns.find? (!·.isComment) <;> simp
  unfold groupOf
  rw [hquery]
  split
  · rw [statementsOf_recast, Node.recast]
  · rw [splitPredicate_recast, Node.recast]

/-- A group that is being read, with other tokens. -/
def Frame.recast (f : Recasting) (frame : Frame) : Frame :=
  ⟨f frame.opening, recastNodes f frame.outer⟩

/-- **Groups are recast with their leaves**, and so is what is wrong about a parenthesis: the fault
is found at the parenthesis that the other one is recast to. -/
lemma nestLeaves_recast (dialect : Dialect) (done : List Node) (frames : List Frame)
    (leaves : List Node) :
    nestLeaves dialect (recastNodes f done) (frames.map (·.recast f)) (recastNodes f leaves) =
      ((nestLeaves dialect done frames leaves).map (recastNodes f)).mapError
        (Prod.map f id) := by
  have hreverse : ∀ ns : List Node, (recastNodes f ns).reverse = recastNodes f ns.reverse := by
    intro ns
    simp [recastNodes_eq_map]
  fun_induction nestLeaves dialect done frames leaves with
  | case1 done => simp [recastNodes, nestLeaves, hreverse, Except.map, Except.mapError]
  | case2 done frame frames =>
    simp [recastNodes, nestLeaves, Except.map, Except.mapError, Frame.recast]
  | case3 done frames t ns hkind ih =>
    rw [← ih]
    simp [recastNodes, Node.recast, nestLeaves, hkind, Frame.recast]
  | case4 done t ns hkind =>
    simp [recastNodes, Node.recast, nestLeaves, hkind, Except.map, Except.mapError]
  | case5 done t ns hkind frame outer ih =>
    rw [← ih]
    simp [recastNodes, Node.recast, nestLeaves, hkind, Frame.recast, hreverse, groupOf_recast]
  | case6 done frames t ns h₁ h₂ ih =>
    have h₁' : (f t).kind = .openParen → False := by rwa [f.kind]
    have h₂' : (f t).kind = .closeParen → False := by rwa [f.kind]
    rw [← ih, recastNodes, Node.recast, recastNodes, Node.recast]
    simp only [nestLeaves]
  | case7 done frames n ns hnot ih =>
    rw [← ih]
    cases n with
    | token t => exact absurd rfl (hnot t)
    | comment c => simp [recastNodes, Node.recast, nestLeaves]
    | query o s c => simp [recastNodes, Node.recast, nestLeaves]
    | list o is c => simp [recastNodes, Node.recast, nestLeaves]

/-! ## Strokes

A script and its recasting have strokes in the same places, so what is said of a place among the
strokes of the one holds of that place in the other.
-/

lemma commaStrokes_recast (comma : Bool) :
    (commaStrokes comma).map (·.recast f) = commaStrokes comma := by
  cases comma <;> rfl

lemma endStrokes_recast (terminated : Bool) :
    (endStrokes terminated).map (·.recast f) = endStrokes terminated := by
  cases terminated <;> rfl

mutual

lemma Node.strokes_recast (n : Node) : (n.recast f).strokes = n.strokes.map (·.recast f) := by
  match n with
  | .token t => rfl
  | .comment c => rfl
  | .query opening script closing =>
    simp [Node.recast, Node.strokes, statementsStrokes_recast script]
  | .list opening operands closing =>
    simp [Node.recast, Node.strokes, contentsStrokes_recast operands]

lemma nodesStrokes_recast (ns : List Node) :
    nodesStrokes (recastNodes f ns) = (nodesStrokes ns).map (·.recast f) := by
  match ns with
  | [] => rfl
  | n :: ns =>
    simp [recastNodes, nodesStrokes, n.strokes_recast, nodesStrokes_recast ns]

lemma contentsStrokes_recast (is : List (Item Node)) :
    contentsStrokes (recastItems f is) = (contentsStrokes is).map (·.recast f) := by
  match is with
  | [] => rfl
  | ⟨nodes, comma⟩ :: is =>
    simp [recastItems, contentsStrokes, nodesStrokes_recast nodes, contentsStrokes_recast is]

lemma itemsStrokes_recast (is : List (Item Node)) :
    itemsStrokes (recastItems f is) = (itemsStrokes is).map (·.recast f) := by
  match is with
  | [] => rfl
  | ⟨nodes, comma⟩ :: is =>
    simp [recastItems, itemsStrokes, nodesStrokes_recast nodes, itemsStrokes_recast is,
      commaStrokes_recast]

lemma bodyStrokes_recast (body : Body Node) :
    bodyStrokes (recastBody f body) = (bodyStrokes body).map (·.recast f) := by
  match body with
  | .items is => simp [recastBody, bodyStrokes, itemsStrokes_recast is]
  | .construction ⟨new, typeName, opening, arguments, closing⟩ =>
    simp [recastBody, bodyStrokes, itemsStrokes_recast arguments]

lemma clausesStrokes_recast (cs : List (Clause Node)) :
    clausesStrokes (recastClauses f cs) = (clausesStrokes cs).map (·.recast f) := by
  match cs with
  | [] => rfl
  | ⟨kind, keywords, leading, body, trailing⟩ :: cs =>
    simp [recastClauses, clausesStrokes, bodyStrokes_recast body, clausesStrokes_recast cs,
      Function.comp_def]

lemma statementsStrokes_recast (ss : List (Statement Node)) :
    statementsStrokes (recastStatements f ss) = (statementsStrokes ss).map (·.recast f) := by
  match ss with
  | [] => rfl
  | ⟨clauses, terminated, trailing⟩ :: ss =>
    simp [recastStatements, statementsStrokes, clausesStrokes_recast clauses,
      statementsStrokes_recast ss, endStrokes_recast, Function.comp_def]

end

/-! ## What layout asks of nodes -/

mutual

lemma Node.hasComments_recast (n : Node) : (n.recast f).hasComments = n.hasComments := by
  match n with
  | .token t => rfl
  | .comment c => rfl
  | .query opening script closing =>
    simp [Node.recast, Node.hasComments, anyStatementHasComments_recast script]
  | .list opening operands closing =>
    simp [Node.recast, Node.hasComments, anyItemHasComments_recast operands]

lemma anyNodeHasComments_recast (ns : List Node) :
    anyNodeHasComments (recastNodes f ns) = anyNodeHasComments ns := by
  match ns with
  | [] => rfl
  | n :: ns =>
    simp [recastNodes, anyNodeHasComments, n.hasComments_recast, anyNodeHasComments_recast ns]

lemma anyItemHasComments_recast (is : List (Item Node)) :
    anyItemHasComments (recastItems f is) = anyItemHasComments is := by
  match is with
  | [] => rfl
  | ⟨nodes, comma⟩ :: is =>
    simp [recastItems, anyItemHasComments, anyNodeHasComments_recast nodes,
      anyItemHasComments_recast is]

lemma bodyHasComments_recast (body : Body Node) :
    bodyHasComments (recastBody f body) = bodyHasComments body := by
  match body with
  | .items is => simp [recastBody, bodyHasComments, anyItemHasComments_recast is]
  | .construction ⟨new, typeName, opening, arguments, closing⟩ =>
    simp [recastBody, bodyHasComments, anyItemHasComments_recast arguments]

lemma anyClauseHasComments_recast (cs : List (Clause Node)) :
    anyClauseHasComments (recastClauses f cs) = anyClauseHasComments cs := by
  match cs with
  | [] => rfl
  | ⟨kind, keywords, leading, body, trailing⟩ :: cs =>
    simp [recastClauses, anyClauseHasComments, bodyHasComments_recast body,
      anyClauseHasComments_recast cs]

lemma anyStatementHasComments_recast (ss : List (Statement Node)) :
    anyStatementHasComments (recastStatements f ss) = anyStatementHasComments ss := by
  match ss with
  | [] => rfl
  | ⟨clauses, terminated, trailing⟩ :: ss =>
    simp [recastStatements, anyStatementHasComments, anyClauseHasComments_recast clauses,
      anyStatementHasComments_recast ss]

end

lemma core_recast (ns : List Node) : core (recastNodes f ns) = recastNodes f (core ns) := by
  have hnote : ((fun n => n.isComment && !n.isOwnLineComment) ∘ Node.recast f) =
      fun n : Node => n.isComment && !n.isOwnLineComment := by
    funext n; simp
  simp only [core, recastNodes_eq_map, ← List.map_reverse, List.dropWhile_map, hnote]

lemma any_isQuery_recast (ns : List Node) :
    (recastNodes f ns).any Node.isQuery = ns.any Node.isQuery := by
  have hquery : Node.isQuery ∘ Node.recast f = Node.isQuery := by funext n; simp
  rw [recastNodes_eq_map, List.any_map, hquery]

/-- A statement that is only comments stays one. -/
lemma isCommentOnly_recast (cs : List (Clause Node)) (terminated : Bool)
    (trailing trailing' : List Comment) :
    Statement.isCommentOnly ⟨recastClauses f cs, terminated, trailing'⟩ =
      Statement.isCommentOnly ⟨cs, terminated, trailing⟩ := by
  have hitems : ∀ is : List (Item Node),
      (recastItems f is).all Item.isCommentOnly = is.all Item.isCommentOnly := by
    have hcomment : Node.isComment ∘ Node.recast f = Node.isComment := by funext n; simp
    intro is
    induction is with
    | nil => rfl
    | cons i is ih =>
      simp only [recastItems, List.all_cons, ih, Item.isCommentOnly, recastNodes_eq_map,
        List.all_map, hcomment]
  have hclauses : (recastClauses f cs).all Clause.isCommentOnly = cs.all Clause.isCommentOnly := by
    induction cs with
    | nil => rfl
    | cons c cs ih =>
      obtain ⟨kind, keywords, leading, body, trailing⟩ := c
      cases body with
      | items is =>
        simp [recastClauses, recastBody, Clause.isCommentOnly, ih, hitems]
      | construction c => simp [recastClauses, recastBody, Clause.isCommentOnly]
  simp only [Statement.isCommentOnly, hclauses]

/-! ## Joins -/

lemma isJoin_recast (nodes : List Node) (comma comma' : Bool) :
    Item.isJoin ⟨recastNodes f nodes, comma⟩ = Item.isJoin ⟨nodes, comma'⟩ := by
  simp only [Item.isJoin]
  rw [filter_recastNodes (by simp), opensJoin_recast]

lemma absorbJoins_recast (nodes : List Node) (comma : Bool) (is : List (Item Node)) :
    absorbJoins ⟨recastNodes f nodes, comma⟩ (recastItems f is) =
      recastItems f (absorbJoins ⟨nodes, comma⟩ is) := by
  induction is generalizing nodes comma with
  | nil => rfl
  | cons i is ih =>
    obtain ⟨nodes', comma'⟩ := i
    simp only [recastItems, absorbJoins, isJoin_recast nodes' comma' comma']
    split
    · rw [← recastNodes_append, ih]
    · rw [ih, recastItems]

lemma joinItems_recast (is : List (Item Node)) :
    joinItems (recastItems f is) = recastItems f (joinItems is) := by
  rcases is with _ | ⟨⟨nodes, comma⟩, is⟩
  · rfl
  · exact absorbJoins_recast nodes comma is

mutual

lemma Node.mergeJoins_recast (n : Node) : (n.recast f).mergeJoins = n.mergeJoins.recast f := by
  match n with
  | .token t => rfl
  | .comment c => rfl
  | .query opening script closing =>
    simp [Node.recast, Node.mergeJoins, mergeStatements_recast script]
  | .list opening operands closing =>
    simp [Node.recast, Node.mergeJoins, mergeItems_recast operands]

lemma mergeNodes_recast (ns : List Node) :
    mergeNodes (recastNodes f ns) = recastNodes f (mergeNodes ns) := by
  match ns with
  | [] => rfl
  | n :: ns => simp [recastNodes, mergeNodes, n.mergeJoins_recast, mergeNodes_recast ns]

lemma mergeItems_recast (is : List (Item Node)) :
    mergeItems (recastItems f is) = recastItems f (mergeItems is) := by
  match is with
  | [] => rfl
  | ⟨nodes, comma⟩ :: is =>
    simp [recastItems, mergeItems, mergeNodes_recast nodes, mergeItems_recast is]

lemma mergeBody_recast (kind : ClauseKind) (body : Body Node) :
    mergeBody kind (recastBody f body) = recastBody f (mergeBody kind body) := by
  match body with
  | .items is =>
    simp only [recastBody, mergeBody, mergeItems_recast is, joinItems_recast]
    split <;> rfl
  | .construction ⟨new, typeName, opening, arguments, closing⟩ =>
    simp [recastBody, mergeBody, mergeItems_recast arguments]

lemma mergeClauses_recast (cs : List (Clause Node)) :
    mergeClauses (recastClauses f cs) = recastClauses f (mergeClauses cs) := by
  match cs with
  | [] => rfl
  | ⟨kind, keywords, leading, body, trailing⟩ :: cs =>
    simp [recastClauses, mergeClauses, mergeBody_recast kind body, mergeClauses_recast cs]

lemma mergeStatements_recast (ss : List (Statement Node)) :
    mergeStatements (recastStatements f ss) = recastStatements f (mergeStatements ss) := by
  match ss with
  | [] => rfl
  | ⟨clauses, terminated, trailing⟩ :: ss =>
    simp [recastStatements, mergeStatements, mergeClauses_recast clauses,
      mergeStatements_recast ss]

end

end SqlInlay.Sql
