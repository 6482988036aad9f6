import SqlInlay.Proofs.Sql.Shown
import SqlInlay.Sql.Layout

/-!
# Printing shows every entry

`printStatements` and its companions recurse on a script, so the proof does too: for each of them
one lemma says that a page which held some entries holds those of its argument behind them.  The
lemmas about clauses, items and nodes refer to each other as the functions do, and none of them
looks at the page: what an operation of a page does is known from `SqlInlay.Proofs.Sql.Shown`.

**The first line.**  A page without lines has to start at the margin.  Everything but a comment in
the middle of a line is written on a new line at the indentation at hand, and that is zero as long
as nothing has been printed; `Opens` collects this.

**Flags.**  A comma or a semicolon that is a flag is printed where the flag says, and one that is a
token where the token is; on the page they look the same.  Only a comma on the operand of a
predicate would be overlooked, and proper entries exclude it (`commaEntries_stray`).

**Joins** put on the line of their table keep the order of all entries (`entries_mergeStatements`),
so a style may ask for it.

The outcome is `Script.holds_layOut`.
-/

namespace SqlInlay.Sql

open Page (Holds Stands)

variable {case : KeywordCase} {p : Page} {es : List Entry}

/-! ## Proper tokens -/

lemma Entry.Proper.isComment_eq_false {role : Role} {t : Token}
    (h : (Entry.ofToken role t).Proper)
    (hrole : role = .plain ∨ role = .opening ∨ role = .closing) :
    t.isComment = false := by
  rcases hrole with rfl | rfl | rfl <;>
    cases hk : t.kind <;> simp_all [Entry.Proper, Entry.ofToken, Token.isComment]

lemma Entry.Proper.isComment_of_plain {t : Token} (h : (Entry.ofToken .plain t).Proper) :
    t.isComment = false :=
  h.isComment_eq_false (.inl rfl)

/-- Proper items of a predicate carry no flag. -/
lemma commaEntries_stray {comma : Bool} (h : ∀ e ∈ commaEntries .stray comma, e.Proper) :
    comma = false := by
  cases comma with
  | false => rfl
  | true => exact absurd (h _ (List.mem_singleton_self _)) Entry.not_proper_comma_stray

/-! ## What has to be so before anything is printed -/

/-- Behind the entries `es`, the entries `new` can be printed at an indentation: if they are the
first, then at the margin, and not from a comment on that shares the line of something. -/
def Opens (indent : Nat) (es new : List Entry) : Prop :=
  es = [] → indent = 0 ∧ ∀ e ∈ new.head?, e.role ≠ .comment false

namespace Opens

variable {indent : Nat} {new rest : List Entry}

lemma of_ne_nil (h : es ≠ []) : Opens indent es new := fun hes => absurd hes h

lemma left (h : Opens indent es (new ++ rest)) : Opens indent es new := by
  intro hes
  refine ⟨(h hes).1, ?_⟩
  have hhead := (h hes).2
  cases new with
  | nil => simp
  | cons e new => simpa using hhead

lemma right (h : Opens indent es (new ++ rest)) : Opens indent (es ++ new) rest := by
  intro hnil
  rw [List.append_eq_nil_iff] at hnil
  obtain ⟨hes, rfl⟩ := hnil
  exact h hes

end Opens

/-! ## Tokens and comments -/

lemma stands_printTokens {tokens : List Token} (hp : p.Stands case es)
    (h : ∀ e ∈ tokens.map (Entry.ofToken .plain), e.Proper) :
    (printTokens case tokens p).Stands case (es ++ tokens.map (.ofToken .plain)) := by
  induction tokens generalizing p es with
  | nil => simpa [printTokens] using hp
  | cons t ts ih =>
    simp only [List.map_cons, List.forall_mem_cons] at h
    have hrest := ih (hp.write h.1.isComment_of_plain .plain) h.2
    simpa [printTokens] using hrest

/-- The comments above a clause. -/
lemma stands_printLeading {indent : Nat} {comments : List Comment} (hp : p.Stands case es)
    (hindent : es = [] → indent = 0) (h : ∀ e ∈ comments.map Entry.ofComment, e.Proper) :
    (printLeading indent comments p).Stands case (es ++ comments.map .ofComment) := by
  induction comments generalizing p es with
  | nil => simpa [printLeading] using hp
  | cons c cs ih =>
    simp only [List.map_cons, List.forall_mem_cons] at h
    have hrest := ih ((hp.stands_breakAt hindent).comment h.1) (by simp) h.2
    simpa [printLeading] using hrest

/-- A comment at the indentation of what it belongs to, or where the page stands. -/
lemma stands_printComment {indent : Nat} {c : Comment} (hp : p.Holds case es)
    (hopens : Opens indent es [.ofComment c]) (h : (Entry.ofComment c).Proper) :
    (printComment indent p c).Stands case (es ++ [.ofComment c]) := by
  unfold printComment
  split
  · exact (hp.stands_breakAt fun hes => (hopens hes).1).comment h
  · rename_i hline
    refine Stands.comment (hp.stands fun hes => ?_) h
    exact (hopens hes).2 _ rfl (by simpa [Entry.ofComment, Entry.ofToken] using hline)

/-- The comments below a clause. -/
lemma stands_printTrailing {indent : Nat} {comments : List Comment} (hp : p.Stands case es)
    (hopens : Opens indent es (comments.map .ofComment))
    (h : ∀ e ∈ comments.map Entry.ofComment, e.Proper) :
    (printTrailing indent comments p).Stands case (es ++ comments.map .ofComment) := by
  induction comments generalizing p es with
  | nil => simpa [printTrailing] using hp
  | cons c cs ih =>
    simp only [List.map_cons, List.forall_mem_cons] at h
    rw [List.map_cons, ← List.singleton_append] at hopens
    have hrest := ih (stands_printComment hp.toHolds hopens.left h.1) hopens.right h.2
    simpa [printTrailing] using hrest

/-- Comments behind a semicolon. -/
lemma stands_foldl_comment {comments : List Comment} (hp : p.Stands case es)
    (h : ∀ e ∈ comments.map Entry.ofComment, e.Proper) :
    (comments.foldl Page.comment p).Stands case (es ++ comments.map .ofComment) := by
  induction comments generalizing p es with
  | nil => simpa using hp
  | cons c cs ih =>
    simp only [List.map_cons, List.forall_mem_cons] at h
    simpa using ih (hp.comment h.1) h.2

/-- The comma of an item. -/
lemma stands_printComma (hp : p.Stands case es) (role : Role) (comma : Bool) :
    (printComma comma p).Stands case (es ++ commaEntries role comma) := by
  cases comma with
  | false => simpa [printComma, commaEntries] using hp
  | true => exact hp.attach role rfl _

/-- The semicolon of a statement. -/
lemma stands_end (hp : p.Stands case es) (terminated : Bool) :
    (if terminated then p.attach .semicolon ";" else p).Stands case
      (es ++ endEntries terminated) := by
  cases terminated with
  | false => simpa [endEntries] using hp
  | true => exact hp.attach .plain rfl _

/-- A token that is a node. -/
lemma stands_printToken {style : Style} {t : Token} (hp : p.Stands style.keywordCase es)
    (h : (Entry.ofToken .plain t).Proper) :
    ((Node.token t).print style p).Stands style.keywordCase (es ++ [.ofToken .plain t]) := by
  simp only [Node.print]
  split
  · rename_i hk
    exact hp.punctuate .plain (by simp [hk, Kind.movesUp])
  · rename_i hk
    exact hp.punctuate .plain (by simp [hk, Kind.movesUp])
  · rename_i hk
    exact hp.punctuate .plain (by simp [hk, Kind.movesUp])
  · exact hp.write h.isComment_of_plain .plain

/-- The keywords of a clause, on a new line if there are any. -/
lemma stands_keywords {indent : Nat} (keywords : List Token) (hp : p.Stands case es)
    (hindent : es = [] → indent = 0) (h : ∀ e ∈ keywords.map (Entry.ofToken .plain), e.Proper) :
    (match keywords with
      | [] => p
      | _ :: _ => printTokens case keywords (p.breakAt indent)).Stands case
      (es ++ keywords.map (Entry.ofToken .plain)) := by
  cases keywords with
  | nil => simpa using hp
  | cons t ts => exact stands_printTokens (hp.stands_breakAt hindent) h

/-- A parenthesis that closes a broken group. -/
lemma stands_close (hp : p.Holds case es) (hne : es ≠ []) {t : Token}
    (h : (Entry.ofToken .closing t).Proper) (indent continuation : Nat) :
    (((p.breakAt indent).write case t).continueAt continuation).Stands case
      (es ++ [.ofToken .closing t]) :=
  ((((hp.breakAt indent).stands hne).write (h.isComment_eq_false (by simp))
    .closing).continueAt continuation).stands_append

/-! ## The recursion -/

section Recursion

variable {style : Style}

mutual

lemma Node.stands_print (n : Node) {p : Page} {es : List Entry}
    (hp : p.Stands style.keywordCase es) (h : ∀ e ∈ n.entries, e.Proper) :
    (n.print style p).Stands style.keywordCase (es ++ n.entries) := by
  match n with
  | .token t =>
    exact stands_printToken hp (h _ (by simp [Node.entries]))
  | .comment c =>
    exact hp.comment (h _ (by simp [Node.entries]))
  | .query opening script closing =>
    simp only [Node.entries, List.forall_mem_cons, List.forall_mem_append, List.not_mem_nil,
      false_implies, implies_true, and_true] at h
    obtain ⟨hopening, hscript, hclosing⟩ := h
    have hopened := hp.write (hopening.isComment_eq_false (by simp)) .opening
    have hinside := stands_printStatements script
      ((p.write style.keywordCase opening).indent + style.indentWidth) true hopened
      (.of_ne_nil (by simp)) (by simp) (by simp) hscript
    have hclosed := stands_close hinside.toHolds (by simp) hclosing
      (p.write style.keywordCase opening).indent p.continuation
    simpa [Node.print, Node.entries] using hclosed
  | .list opening operands closing =>
    simp only [Node.entries, List.forall_mem_cons, List.forall_mem_append, List.not_mem_nil,
      false_implies, implies_true, and_true] at h
    obtain ⟨hopening, hoperands, hclosing⟩ := h
    have hopened := hp.write (hopening.isComment_eq_false (by simp)) .opening
    simp only [Node.print]
    split
    · have hinside := stands_printItems operands _
        ((p.write style.keywordCase opening).indent + style.indentWidth)
        hopened (.of_ne_nil (by simp)) hoperands
      have hclosed := stands_close hinside.toHolds (by simp) hclosing
        (p.write style.keywordCase opening).indent p.continuation
      simpa [Node.entries] using hclosed
    · have hinside := stands_printContents operands hopened hoperands
      have hkind : closing.kind = .closeParen := hclosing
      have hclosed := hinside.punctuate .closing (t := closing) (by simp [hkind, Kind.movesUp])
      simpa [Node.entries] using hclosed

lemma stands_printNodes (ns : List Node) {p : Page} {es : List Entry}
    (hp : p.Stands style.keywordCase es) (h : ∀ e ∈ nodesEntries ns, e.Proper) :
    (printNodes style ns p).Stands style.keywordCase (es ++ nodesEntries ns) := by
  match ns with
  | [] => simpa [printNodes, nodesEntries] using hp
  | n :: ns =>
    simp only [nodesEntries, List.forall_mem_append] at h
    have hrest := stands_printNodes ns (n.stands_print hp h.1) h.2
    simpa [printNodes, nodesEntries] using hrest

lemma stands_printContents (is : List (Item Node)) {p : Page} {es : List Entry}
    (hp : p.Stands style.keywordCase es) (h : ∀ e ∈ itemsEntries .stray is, e.Proper) :
    (printContents style is p).Stands style.keywordCase (es ++ itemsEntries .stray is) := by
  match is with
  | [] => simpa [printContents, itemsEntries] using hp
  | ⟨nodes, comma⟩ :: is =>
    simp only [itemsEntries, List.forall_mem_append] at h
    obtain rfl := commaEntries_stray h.1.2
    have hrest := stands_printContents is (stands_printNodes nodes hp h.1.1) h.2
    simpa [printContents, itemsEntries, commaEntries] using hrest

lemma stands_printItemNodes (ns : List Node) (indent : Nat) {p : Page} {es : List Entry}
    (hp : p.Holds style.keywordCase es) (hopens : Opens indent es (nodesEntries ns))
    (h : ∀ e ∈ nodesEntries ns, e.Proper) :
    (printItemNodes style indent ns p).Stands style.keywordCase (es ++ nodesEntries ns) := by
  have hfresh := hp.stands_breakAt fun hes => (hopens hes).1
  match ns with
  | [] => simpa [printItemNodes, nodesEntries] using hfresh
  | .comment c :: ns =>
    simp only [nodesEntries, Node.entries, List.forall_mem_append] at h hopens
    have hcomment := stands_printComment hp hopens.left (h.1 _ (by simp))
    have hrest := stands_printItemNodes ns indent hcomment.toHolds hopens.right h.2
    simpa [printItemNodes, nodesEntries, Node.entries] using hrest
  | .token t :: ns =>
    simp only [nodesEntries, List.forall_mem_append] at h
    have hrest := stands_printNodes ns ((Node.token t).stands_print hfresh h.1) h.2
    simpa [printItemNodes, nodesEntries] using hrest
  | .query o s c :: ns =>
    simp only [nodesEntries, List.forall_mem_append] at h
    have hrest := stands_printNodes ns ((Node.query o s c).stands_print hfresh h.1) h.2
    simpa [printItemNodes, nodesEntries] using hrest
  | .list o is c :: ns =>
    simp only [nodesEntries, List.forall_mem_append] at h
    have hrest := stands_printNodes ns ((Node.list o is c).stands_print hfresh h.1) h.2
    simpa [printItemNodes, nodesEntries] using hrest

lemma stands_printItems (is : List (Item Node)) (role : Role) (indent : Nat) {p : Page}
    {es : List Entry} (hp : p.Stands style.keywordCase es)
    (hopens : Opens indent es (itemsEntries role is))
    (h : ∀ e ∈ itemsEntries role is, e.Proper) :
    (printItems style indent is p).Stands style.keywordCase (es ++ itemsEntries role is) := by
  match is with
  | [] => simpa [printItems, itemsEntries] using hp
  | ⟨nodes, comma⟩ :: is =>
    simp only [itemsEntries, List.forall_mem_append] at h hopens
    have hnodes := stands_printItemNodes nodes indent
      (hp.toHolds.continueAt (indent + style.indentWidth)) hopens.left.left h.1.1
    have hcomma := stands_printComma hnodes role comma
    rw [List.append_assoc] at hcomma
    have hrest := stands_printItems is role indent hcomma hopens.right h.2
    simpa [printItems, itemsEntries] using hrest

lemma stands_printClauseItems (is : List (Item Node)) {kind : ClauseKind} {indent : Nat}
    {p : Page} {es : List Entry} (hp : p.Holds style.keywordCase es) (hne : es ≠ [])
    (h : ∀ e ∈ itemsEntries kind.commaRole is, e.Proper) :
    (printClauseItems style indent kind.isPredicate is p).Stands style.keywordCase
      (es ++ itemsEntries kind.commaRole is) := by
  match is with
  | [] => simpa [printClauseItems, itemsEntries] using hp.stands hne
  | ⟨nodes, comma⟩ :: is =>
    simp only [itemsEntries, List.forall_mem_append] at h
    have hcontinued := (hp.continueAt (indent + style.indentWidth)).stands hne
    have hnodes := stands_printNodes nodes hcontinued h.1.1
    simp only [printClauseItems]
    split
    · rename_i hsingle
      obtain rfl : is = [] := by
        simp only [Bool.and_eq_true, List.isEmpty_iff] at hsingle
        exact hsingle.1
      simpa [itemsEntries] using stands_printComma hnodes kind.commaRole comma
    · split
      · rename_i hpredicate
        have hrole : kind.commaRole = .stray := by simp [ClauseKind.commaRole, hpredicate]
        rw [hrole] at h ⊢
        obtain rfl := commaEntries_stray h.1.2
        have hrest := stands_printItems is .stray indent hnodes
          (.of_ne_nil (by simp [hne])) h.2
        simpa [itemsEntries, commaEntries] using hrest
      · have hfirst := stands_printItemNodes nodes (indent + style.indentWidth)
          (hp.continueAt (indent + style.indentWidth + style.indentWidth))
          (.of_ne_nil hne) h.1.1
        have hcomma := stands_printComma hfirst kind.commaRole comma
        have hrest := stands_printItems is kind.commaRole (indent + style.indentWidth) hcomma
          (.of_ne_nil (by simp [hne])) h.2
        simpa [itemsEntries] using hrest

lemma stands_printBody (body : Body Node) (bare : Bool) {kind : ClauseKind} {indent : Nat}
    {p : Page} {es : List Entry} (hp : p.Stands style.keywordCase es)
    (hopens : Opens indent es (bodyEntries kind body)) (hbare : bare = false → es ≠ [])
    (h : ∀ e ∈ bodyEntries kind body, e.Proper) :
    (printBody style indent kind.isPredicate bare body p).Stands style.keywordCase
      (es ++ bodyEntries kind body) := by
  match body with
  | .items is =>
    simp only [printBody, bodyEntries] at h hopens ⊢
    cases bare with
    | true => exact stands_printItems is _ indent hp hopens h
    | false => exact stands_printClauseItems is hp.toHolds (hbare rfl) h
  | .construction ⟨new, typeName, opening, arguments, closing⟩ =>
    simp only [bodyEntries, List.map_cons, List.forall_mem_append, List.forall_mem_cons,
      List.not_mem_nil, false_implies, implies_true, and_true] at h
    obtain ⟨⟨hnew, htype⟩, hopening, harguments, hclosing⟩ := h
    have hstarted := hp.write hnew.isComment_of_plain .plain
    have hopened := (stands_printTokens hstarted htype).glue (.inl hopening) .opening
    simp only [printBody]
    split
    · rename_i hempty
      obtain rfl := List.isEmpty_iff.1 hempty
      have hclosed := hopened.glue (.inr hclosing) .closing
      simpa [bodyEntries, itemsEntries] using hclosed
    · have hinside := stands_printItems arguments _ (indent + 2 * style.indentWidth)
        hopened (.of_ne_nil (by simp)) harguments
      have hclosed := ((hinside.toHolds.breakAt ((p.write style.keywordCase new).column -
        new.text.length)).stands (by simp)).glue (.inr hclosing) .closing
      simpa [bodyEntries] using hclosed

lemma stands_printClauses (cs : List (Clause Node)) {indent : Nat} {p : Page} {es : List Entry}
    (hp : p.Stands style.keywordCase es) (hopens : Opens indent es (clausesEntries cs))
    (h : ∀ e ∈ clausesEntries cs, e.Proper) :
    (printClauses style indent cs p).Stands style.keywordCase (es ++ clausesEntries cs) := by
  match cs with
  | [] => simpa [printClauses, clausesEntries] using hp
  | ⟨kind, keywords, leading, body, trailing⟩ :: cs =>
    simp only [clausesEntries, List.forall_mem_append] at h
    simp only [clausesEntries] at hopens
    obtain ⟨⟨⟨⟨hleading, hkeywords⟩, hbody⟩, htrailing⟩, hclauses⟩ := h
    have hbegun := stands_printLeading hp (fun hes => (hopens hes).1) hleading
    have hheaded := stands_keywords keywords hbegun
      (fun hnil => (hopens (List.append_eq_nil_iff.1 hnil).1).1) hkeywords
    rw [List.append_assoc] at hheaded
    have hwritten := stands_printBody body keywords.isEmpty hheaded
      hopens.left.left.right (fun hwords => by simp_all) hbody
    rw [List.append_assoc] at hwritten
    have hended := stands_printTrailing hwritten hopens.left.right htrailing
    rw [List.append_assoc] at hended
    have hrest := stands_printClauses cs hended hopens.right hclauses
    simp only [printClauses, clausesEntries]
    rw [← List.append_assoc]
    exact hrest

lemma stands_printStatements (ss : List (Statement Node)) (indent : Nat) (first : Bool)
    {p : Page} {es : List Entry} (hp : p.Stands style.keywordCase es)
    (hopens : Opens indent es (statementsEntries ss)) (hfirst : first = false → es ≠ [])
    (hbegins : es = [] → ∀ s ∈ ss.head?, statementsEntries [s] ≠ [])
    (h : ∀ e ∈ statementsEntries ss, e.Proper) :
    (printStatements style indent first ss p).Stands style.keywordCase
      (es ++ statementsEntries ss) := by
  match ss with
  | [] => simpa [printStatements, statementsEntries] using hp
  | ⟨clauses, terminated, trailing⟩ :: ss =>
    simp only [statementsEntries, List.forall_mem_append] at h
    simp only [statementsEntries] at hopens
    obtain ⟨⟨⟨hclauses, -⟩, htrailing⟩, hstatements⟩ := h
    have hbegins' : es = [] → clausesEntries clauses ++ endEntries terminated ++
        trailing.map Entry.ofComment ≠ [] := by
      intro hes
      simpa [statementsEntries] using hbegins hes _ rfl
    simp only [printStatements]
    -- an empty line stands in front of a statement only if something stands in front of it
    generalize hapart : (!first && !Statement.isCommentOnly ⟨clauses, terminated, trailing⟩) = apart
    have hseparated : (if apart then p.separate else p).Stands style.keywordCase es := by
      cases apart with
      | false => exact hp
      | true =>
        simp only [Bool.and_eq_true, Bool.not_eq_true'] at hapart
        exact (hp.separate (hfirst hapart.1)).stands (hfirst hapart.1)
    have hwritten := stands_printClauses clauses hseparated hopens.left.left.left hclauses
    have hended := stands_foldl_comment (stands_end hwritten terminated) htrailing
    have hrest := stands_printStatements ss indent false (by simpa using hended) hopens.right
      (fun _ hnil => ?_) (fun hnil => ?_) hstatements
    · simpa [statementsEntries] using hrest
    · rw [List.append_eq_nil_iff] at hnil
      exact hbegins' hnil.1 hnil.2
    · rw [List.append_eq_nil_iff] at hnil
      exact absurd hnil.2 (hbegins' hnil.1)

end

end Recursion

/-! ## Joins on the line of their table -/

/-- An item that takes in joins keeps the order of what it takes in; it stops at a comma. -/
lemma entries_absorbJoins (role : Role) (first : Item Node) (is : List (Item Node)) :
    itemsEntries role (absorbJoins first is) = itemsEntries role (first :: is) := by
  induction is generalizing first with
  | nil => rfl
  | cons i is ih =>
    obtain ⟨nodes, comma⟩ := first
    simp only [absorbJoins]
    split
    · rename_i hjoin
      simp only [Bool.and_eq_true, Bool.not_eq_true'] at hjoin
      rw [ih]
      simp [itemsEntries, hjoin.2, commaEntries]
    · simp [itemsEntries, ih]

lemma entries_joinItems (role : Role) (is : List (Item Node)) :
    itemsEntries role (joinItems is) = itemsEntries role is := by
  cases is with
  | nil => rfl
  | cons i is => exact entries_absorbJoins role i is

mutual

lemma Node.entries_mergeJoins (n : Node) : n.mergeJoins.entries = n.entries := by
  match n with
  | .token t => rfl
  | .comment c => rfl
  | .query opening script closing =>
    simp [Node.mergeJoins, Node.entries, entries_mergeStatements script]
  | .list opening operands closing =>
    simp [Node.mergeJoins, Node.entries, entries_mergeItems .stray operands]

lemma entries_mergeNodes (ns : List Node) : nodesEntries (mergeNodes ns) = nodesEntries ns := by
  match ns with
  | [] => rfl
  | n :: ns => simp [mergeNodes, nodesEntries, n.entries_mergeJoins, entries_mergeNodes ns]

lemma entries_mergeItems (role : Role) (is : List (Item Node)) :
    itemsEntries role (mergeItems is) = itemsEntries role is := by
  match is with
  | [] => rfl
  | ⟨nodes, comma⟩ :: is =>
    simp [mergeItems, itemsEntries, entries_mergeNodes nodes, entries_mergeItems role is]

lemma entries_mergeBody (kind : ClauseKind) (body : Body Node) :
    bodyEntries kind (mergeBody kind body) = bodyEntries kind body := by
  match body with
  | .items is =>
    simp only [mergeBody, bodyEntries]
    split
    · rw [entries_joinItems, entries_mergeItems _ is]
    · rw [entries_mergeItems _ is]
  | .construction ⟨new, typeName, opening, arguments, closing⟩ =>
    simp [mergeBody, bodyEntries, entries_mergeItems .plain arguments]

lemma entries_mergeClauses (cs : List (Clause Node)) :
    clausesEntries (mergeClauses cs) = clausesEntries cs := by
  match cs with
  | [] => rfl
  | ⟨kind, keywords, leading, body, trailing⟩ :: cs =>
    simp [mergeClauses, clausesEntries, entries_mergeBody kind body, entries_mergeClauses cs]

lemma entries_mergeStatements (ss : List (Statement Node)) :
    statementsEntries (mergeStatements ss) = statementsEntries ss := by
  match ss with
  | [] => rfl
  | ⟨clauses, terminated, trailing⟩ :: ss =>
    simp [mergeStatements, statementsEntries, entries_mergeClauses clauses,
      entries_mergeStatements ss]

end

/-! ## Scripts -/

/-- **Printing shows every entry.**  A page on which a script is laid out holds the entries of the
script: the first of them is no comment in the middle of a line, and the first statement has one. -/
theorem Script.holds_layOut {style : Style} {script : Script}
    (h : ∀ e ∈ statementsEntries script, e.Proper)
    (hhead : ∀ e ∈ (statementsEntries script).head?, e.role ≠ .comment false)
    (hbegins : ∀ s ∈ script.head?, statementsEntries [s] ≠ []) :
    (Script.layOut style script).Holds style.keywordCase (statementsEntries script) := by
  have hstands := fun ss : List (Statement Node) => stands_printStatements ss 0 true
    (Page.stands_empty style.keywordCase)
  unfold Script.layOut
  split
  · simpa using (hstands script (fun _ => ⟨rfl, hhead⟩) (by simp) (fun _ => hbegins) h).toHolds
  · have hmerged : statementsEntries (Script.mergeJoins script) = statementsEntries script :=
      entries_mergeStatements script
    rw [← hmerged] at h hhead ⊢
    refine (hstands _ (fun _ => ⟨rfl, hhead⟩) (by simp) (fun _ => ?_) h).toHolds
    intro s hs
    match script with
    | [] => simp [Script.mergeJoins, mergeStatements] at hs
    | ⟨clauses, terminated, trailing⟩ :: ss =>
      obtain rfl : ⟨mergeClauses clauses, terminated, trailing⟩ = s := by
        simpa [Script.mergeJoins, mergeStatements] using hs
      have hfirst := hbegins _ rfl
      simpa [statementsEntries, entries_mergeClauses] using hfirst

end SqlInlay.Sql
