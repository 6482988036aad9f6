import Mathlib.Data.List.Basic
import Mathlib.Data.List.TakeWhile
import Mathlib.Tactic.Common
import SqlInlay.Sql.Script.Nesting

/-!
# What a script holds, in order

A script keeps some tokens as flags: the comma behind an item, the semicolon behind a statement.
`Node.entries` and its companions read a script from left to right and list everything that it
holds, flags included, as `Entry`s.  An entry is a kind and a text; the offset of a token is gone,
for a flag has none.

**Roles.**  An entry also says what it was in the script, because printing goes by that and not by
the kind.  `Entry.Proper` says that role and kind agree.  A comma flag on the operand of a predicate
has the role `stray`, which is never proper: printing does not look for it there.

**Dividing.**  The functions that divide nodes into items keep every entry in its place, and this
module says so of each: `entries_itemsFrom` for any cuts that drop nothing but commas (`CommasAre`),
and `entries_splitItems` for the three ways of cutting.  Clauses, statements and groups follow in
`SqlInlay.Proofs.Sql.Segmentation`, which ends in `segment_entries`: segmenting loses, doubles and
reorders nothing.
-/

namespace SqlInlay.Sql

/-! ## Entries -/

/-- What an entry is in its script. -/
inductive Role where
  | plain
  | comment (ownLine : Bool)
  | opening
  | closing
  /-- A comma where no comma is ever written. -/
  | stray
deriving DecidableEq, Repr

/-- Something that a script holds: a token or a flag that stands for one.  Where it stood in the
query is forgotten, for a flag does not know. -/
structure Entry where
  role : Role
  kind : Kind
  text : Text
deriving DecidableEq, Repr

namespace Entry

/-- A token with a role. -/
def ofToken (role : Role) (t : Token) : Entry := ⟨role, t.kind, t.text⟩

/-- A comment. -/
def ofComment (c : Comment) : Entry := .ofToken (.comment c.ownLine) c.token

/-- The comma of an item. -/
def comma (role : Role) : Entry := ⟨role, .comma, ","⟩

/-- The semicolon of a statement. -/
def semicolon : Entry := ⟨.plain, .semicolon, ";"⟩

/-- The kind of an entry suits its role, and commas and semicolons read as their flags do.  No
proper entry is a blank. -/
def Proper (e : Entry) : Prop :=
  match e.role with
  | .plain =>
    e.kind ∉ [.openParen, .closeParen, .lineComment, .blockComment, .blank] ∧
      (e.kind = .comma → e.text = ",".toList) ∧ (e.kind = .semicolon → e.text = ";".toList)
  | .comment _ => e.kind = .lineComment ∨ e.kind = .blockComment
  | .opening => e.kind = .openParen
  | .closing => e.kind = .closeParen
  | .stray => False

lemma not_proper_comma_stray : ¬ (comma .stray).Proper := id

end Entry

/-- The flag of an item as an entry. -/
def commaEntries (role : Role) (comma : Bool) : List Entry :=
  if comma then [.comma role] else []

/-- The flag of a statement as an entry. -/
def endEntries (terminated : Bool) : List Entry := if terminated then [.semicolon] else []

/-- The role of the commas of a clause; those of a predicate would be stray. -/
def ClauseKind.commaRole (kind : ClauseKind) : Role := if kind.isPredicate then .stray else .plain

mutual

/-- The entries of a node. -/
def Node.entries : Node → List Entry
  | .token t => [.ofToken .plain t]
  | .comment c => [.ofComment c]
  | .query opening script closing =>
    .ofToken .opening opening :: (statementsEntries script ++ [.ofToken .closing closing])
  | .list opening operands closing =>
    .ofToken .opening opening :: (itemsEntries .stray operands ++ [.ofToken .closing closing])

/-- The entries of some nodes. -/
def nodesEntries : List Node → List Entry
  | [] => []
  | n :: ns => n.entries ++ nodesEntries ns

/-- The entries of some items, with the role of their commas. -/
def itemsEntries (role : Role) : List (Item Node) → List Entry
  | [] => []
  | ⟨nodes, comma⟩ :: is => nodesEntries nodes ++ commaEntries role comma ++ itemsEntries role is

/-- The entries of the body of a clause. -/
def bodyEntries (kind : ClauseKind) : Body Node → List Entry
  | .items is => itemsEntries kind.commaRole is
  | .construction ⟨new, typeName, opening, arguments, closing⟩ =>
    (new :: typeName).map (.ofToken .plain) ++
      .ofToken .opening opening :: (itemsEntries .plain arguments ++ [.ofToken .closing closing])

/-- The entries of some clauses. -/
def clausesEntries : List (Clause Node) → List Entry
  | [] => []
  | ⟨kind, keywords, leading, body, trailing⟩ :: cs =>
    leading.map .ofComment ++ keywords.map (.ofToken .plain) ++ bodyEntries kind body ++
      trailing.map .ofComment ++ clausesEntries cs

/-- The entries of some statements. -/
def statementsEntries : List (Statement Node) → List Entry
  | [] => []
  | ⟨clauses, terminated, trailing⟩ :: ss =>
    clausesEntries clauses ++ endEntries terminated ++ trailing.map .ofComment ++
      statementsEntries ss

end

@[simp] lemma nodesEntries_append (ns ms : List Node) :
    nodesEntries (ns ++ ms) = nodesEntries ns ++ nodesEntries ms := by
  induction ns with
  | nil => simp [nodesEntries]
  | cons n ns ih => simp [nodesEntries, ih]

@[simp] lemma itemsEntries_append (role : Role) (is js : List (Item Node)) :
    itemsEntries role (is ++ js) = itemsEntries role is ++ itemsEntries role js := by
  induction is with
  | nil => simp [itemsEntries]
  | cons i is ih => simp [itemsEntries, ih]

@[simp] lemma clausesEntries_append (cs ds : List (Clause Node)) :
    clausesEntries (cs ++ ds) = clausesEntries cs ++ clausesEntries ds := by
  induction cs with
  | nil => simp [clausesEntries]
  | cons c cs ih => simp [clausesEntries, ih]

/-- Every node holds something. -/
lemma Node.entries_ne_nil (n : Node) : n.entries ≠ [] := by
  cases n <;> simp [Node.entries]

lemma nodesEntries_eq_nil {ns : List Node} : nodesEntries ns = [] ↔ ns = [] := by
  cases ns with
  | nil => simp [nodesEntries]
  | cons n ns => simp [nodesEntries, n.entries_ne_nil]

/-! ## Items -/

/-- The trailing comments of some nodes are their end. -/
lemma withoutTrailing_append (nodes : List Node) :
    withoutTrailing nodes ++ trailingComments nodes = nodes := by
  have hsuffix : trailingComments nodes <:+ nodes := by
    have hrun : (nodes.reverse.takeWhile Node.isComment).reverse <:+ nodes := by
      rw [← List.reverse_prefix, List.reverse_reverse]
      exact List.takeWhile_prefix _
    exact (List.dropWhile_suffix _).trans hrun
  obtain ⟨front, hfront⟩ := hsuffix
  have hlength := congrArg List.length hfront
  rw [List.length_append] at hlength
  have htake : withoutTrailing nodes = front := by
    rw [withoutTrailing, ← hlength, Nat.add_sub_cancel]
    conv_lhs => rw [← hfront]
    exact List.take_left
  rw [htake, hfront]

/-- Trailing comments are comments. -/
lemma isComment_of_mem_trailingComments {nodes : List Node} {n : Node}
    (h : n ∈ trailingComments nodes) : n.isComment = true := by
  have hrun := (List.dropWhile_sublist _).subset h
  rw [List.mem_reverse] at hrun
  exact List.mem_takeWhile_imp hrun

/-- Comments taken out of their nodes have the entries of the nodes. -/
lemma entries_commentsOf {nodes : List Node} (h : ∀ n ∈ nodes, n.isComment = true) :
    (commentsOf nodes).map .ofComment = nodesEntries nodes := by
  induction nodes with
  | nil => simp [commentsOf, nodesEntries]
  | cons n ns ih =>
    have hn := h n (List.mem_cons_self ..)
    have hns := ih fun m hm => h m (List.mem_cons_of_mem _ hm)
    cases n with
    | comment c => simpa [commentsOf, nodesEntries, Node.entries, Node.comment?] using hns
    | token t => simp [Node.isComment, Node.comment?] at hn
    | query o s c => simp [Node.isComment, Node.comment?] at hn
    | list o is c => simp [Node.isComment, Node.comment?] at hn

@[simp] lemma entries_trailingComments (nodes : List Node) :
    (commentsOf (trailingComments nodes)).map .ofComment =
      nodesEntries (trailingComments nodes) :=
  entries_commentsOf fun _ h => isComment_of_mem_trailingComments h

@[simp] lemma entries_openItem (role : Role) (nodes : List Node) :
    itemsEntries role (openItem nodes) = nodesEntries nodes := by
  cases nodes <;> simp [openItem, itemsEntries, nodesEntries, commaEntries]

/-- Each node that a comma cut drops has the comma as its one entry. -/
def CommasAre (role : Role) (cuts : List (Cut × Node)) : Prop :=
  ∀ n, (Cut.comma, n) ∈ cuts → n.entries = [.comma role]

/-- Carrying cuts out keeps every entry in its place. -/
lemma entries_itemsFrom {role : Role} {cuts : List (Cut × Node)} (h : CommasAre role cuts)
    (current : List Node) :
    itemsEntries role (itemsFrom current cuts) =
      nodesEntries current ++ nodesEntries (cuts.map Prod.snd) := by
  induction cuts generalizing current with
  | nil => simp [itemsFrom, nodesEntries]
  | cons cut cuts ih =>
    have hrest : CommasAre role cuts := fun n hn => h n (List.mem_cons_of_mem _ hn)
    obtain ⟨cut, n⟩ := cut
    cases cut with
    | comma =>
      have hn := h n (List.mem_cons_self ..)
      simp [itemsFrom, itemsEntries, commaEntries, ih hrest, nodesEntries, hn]
    | before =>
      conv_rhs => rw [← withoutTrailing_append current]
      simp [itemsFrom, ih hrest, nodesEntries]
    | inside => simp [itemsFrom, ih hrest, nodesEntries]

lemma entries_itemsOf {role : Role} {cuts : List (Cut × Node)} (h : CommasAre role cuts) :
    itemsEntries role (itemsOf cuts) = nodesEntries (cuts.map Prod.snd) := by
  rw [itemsOf, entries_itemsFrom h]
  simp [nodesEntries]

/-- A proper comma is the flag that stands for it. -/
lemma entries_of_isKind_comma {n : Node} (hn : ∀ e ∈ n.entries, e.Proper)
    (h : n.isKind .comma = true) : n.entries = [.comma .plain] := by
  cases n with
  | token t =>
    have ht : t.kind = .comma := by simpa [Node.isKind, Node.token?] using h
    have hp := hn _ (List.mem_singleton_self _)
    simp only [Entry.Proper, Entry.ofToken] at hp
    simp [Node.entries, Entry.ofToken, Entry.comma, ht, hp.2.1 ht]
  | comment c => simp [Node.isKind, Node.token?] at h
  | query o s c => simp [Node.isKind, Node.token?] at h
  | list o is c => simp [Node.isKind, Node.token?] at h

lemma proper_of_mem {nodes : List Node} (h : ∀ e ∈ nodesEntries nodes, e.Proper) {n : Node}
    (hn : n ∈ nodes) : ∀ e ∈ n.entries, e.Proper := by
  induction nodes with
  | nil => simp at hn
  | cons m ns ih =>
    simp only [nodesEntries, List.mem_append] at h
    rcases List.mem_cons.1 hn with rfl | hn
    · exact fun e he => h e (.inl he)
    · exact ih (fun e he => h e (.inr he)) hn

lemma map_snd_commaCuts (nodes : List Node) : (commaCuts nodes).map Prod.snd = nodes := by
  simp [commaCuts, Function.comp_def]

lemma commasAre_commaCuts {nodes : List Node} (h : ∀ e ∈ nodesEntries nodes, e.Proper) :
    CommasAre .plain (commaCuts nodes) := by
  intro n hn
  simp only [commaCuts, List.mem_map, Prod.mk.injEq] at hn
  obtain ⟨m, hm, hcut, rfl⟩ := hn
  refine entries_of_isKind_comma (proper_of_mem h hm) ?_
  by_contra hc
  simp [hc] at hcut

lemma map_snd_fromCuts (before : Option Node) (nodes : List Node) :
    (fromCuts before nodes).map Prod.snd = nodes := by
  induction nodes generalizing before with
  | nil => simp [fromCuts]
  | cons n ns ih =>
    simp only [fromCuts]
    split
    · simp [ih]
    · split <;> simp [ih]

/-- Only commas are cut as commas. -/
lemma isKind_comma_of_mem_fromCuts {before : Option Node} {nodes : List Node} {n : Node}
    (h : (Cut.comma, n) ∈ fromCuts before nodes) : n ∈ nodes ∧ n.isKind .comma = true := by
  induction nodes generalizing before with
  | nil => simp [fromCuts] at h
  | cons m ns ih =>
    simp only [fromCuts] at h
    split at h
    · have hrest : (Cut.comma, n) ∈ fromCuts before ns := by simpa using h
      have hmem := ih hrest
      exact ⟨List.mem_cons_of_mem _ hmem.1, hmem.2⟩
    · split at h
      · rename_i hcomma
        rcases List.mem_cons.1 h with heq | h
        · obtain rfl : n = m := by simpa using heq
          exact ⟨List.mem_cons_self .., hcomma⟩
        · exact ⟨List.mem_cons_of_mem _ (ih h).1, (ih h).2⟩
      · rcases List.mem_cons.1 h with heq | h
        · split at heq <;> simp at heq
        · exact ⟨List.mem_cons_of_mem _ (ih h).1, (ih h).2⟩

lemma commasAre_fromCuts {nodes : List Node} (h : ∀ e ∈ nodesEntries nodes, e.Proper)
    (before : Option Node) : CommasAre .plain (fromCuts before nodes) := by
  intro n hn
  obtain ⟨hmem, hcomma⟩ := isKind_comma_of_mem_fromCuts hn
  exact entries_of_isKind_comma (proper_of_mem h hmem) hcomma

lemma PredicateState.step_ne_comma (s : PredicateState) (t : Token) : (s.step t).1 ≠ .comma := by
  unfold PredicateState.step
  simp only
  repeat' split
  all_goals simp

lemma map_snd_predicateCuts (s : PredicateState) (nodes : List Node) :
    (predicateCuts s nodes).map Prod.snd = nodes := by
  fun_induction predicateCuts s nodes <;> simp_all

/-- A predicate is never cut at commas. -/
lemma commasAre_predicateCuts (role : Role) (s : PredicateState) (nodes : List Node) :
    CommasAre role (predicateCuts s nodes) := by
  have hnone : ∀ n, (Cut.comma, n) ∉ predicateCuts s nodes := by
    intro n
    fun_induction predicateCuts s nodes with
    | case1 => simp
    | case2 s t ns ih => simp [ih, (s.step_ne_comma t).symm]
    | case3 s c ns ih => simp [ih]
    | case4 s m ns _ _ ih => simp [ih]
  exact fun n hn => absurd hn (hnone n)

lemma entries_splitCommas {nodes : List Node} (h : ∀ e ∈ nodesEntries nodes, e.Proper) :
    itemsEntries .plain (splitCommas nodes) = nodesEntries nodes := by
  rw [splitCommas, entries_itemsOf (commasAre_commaCuts h), map_snd_commaCuts]

lemma entries_splitPredicate (role : Role) (nodes : List Node) :
    itemsEntries role (splitPredicate nodes) = nodesEntries nodes := by
  rw [splitPredicate, entries_itemsOf (commasAre_predicateCuts role _ _), map_snd_predicateCuts]

lemma entries_splitItems (kind : ClauseKind) {nodes : List Node}
    (h : ∀ e ∈ nodesEntries nodes, e.Proper) :
    itemsEntries kind.commaRole (splitItems kind nodes) = nodesEntries nodes := by
  unfold splitItems
  split
  · rename_i hcomma
    have hrole : kind.commaRole = .plain := by
      cases kind <;>
        simp_all [ClauseKind.commaRole, ClauseKind.isCommaList, ClauseKind.isPredicate]
    rw [hrole, entries_splitCommas h]
  · split
    · exact entries_splitPredicate _ nodes
    · split
      · rename_i hkind
        subst hkind
        exact (entries_itemsOf (commasAre_fromCuts h none)).trans
          (by rw [map_snd_fromCuts])
      · exact entries_openItem _ nodes

/-- Where no comma is stray, operands hold what their contents hold. -/
lemma entries_contentsOf {operands : List (Item Node)}
    (h : ∀ e ∈ itemsEntries .stray operands, e.Proper) :
    itemsEntries .stray operands = nodesEntries (contentsOf operands) := by
  induction operands with
  | nil => simp [itemsEntries, contentsOf, nodesEntries]
  | cons i is ih =>
    obtain ⟨nodes, comma⟩ := i
    simp only [itemsEntries, List.mem_append] at h
    have hcomma : comma = false := by
      cases comma with
      | false => rfl
      | true =>
        exact absurd (h (.comma .stray) (.inl (.inr (by simp [commaEntries]))))
          Entry.not_proper_comma_stray
    have hrest := ih fun e he => h e (.inr he)
    simp only [contentsOf] at hrest ⊢
    simp [itemsEntries, hcomma, commaEntries, hrest]

end SqlInlay.Sql
