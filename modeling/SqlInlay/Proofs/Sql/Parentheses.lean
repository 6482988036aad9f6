import Mathlib.Data.List.Basic
import Mathlib.Tactic.Common
import SqlInlay.Sql.Script.Nesting

/-!
# Parentheses

Segmentation refuses a query for its parentheses and for nothing else.  `segment_parentheses` says
when, and which parenthesis the failure names: the first closing one that has no partner, or, if
each has one, the last opening one that is never closed.

**The grammar.**  `Balanced` are the tokens whose parentheses pair up, whatever else stands among
them.  What is open or closed at a place is said in its terms: a parenthesis is closed where a
balanced run behind it is followed by a closing one (`ClosedIn`).  No counter is kept and no stack,
so the statement can be read without knowing how nesting goes about it.

**What nesting does.**  Nesting walks over a balanced run and leaves the groups around it as they
were (`Balanced.exists_nestFrom`); `Folds` says which nodes it makes of the run.  The induction is
over the grammar, for any stack of groups that are open.

**Two kinds of fault.**  Every token list either has a stray parenthesis behind a balanced run, or
is `Pending`: balanced runs divided by parentheses that are never closed
(`exists_stray_or_pending`).  The two exclude each other, because nesting fails with another cause
for each of them (`Pending.not_stray`).  That is a detour through the program for a fact about
lists, but a short one: what nesting answers has to be known anyway.

* `nestFrom_stray` and `Balanced.strayAt_first` are about the first kind: nesting stops at the stray
  parenthesis, and every parenthesis in front of it is closed.
* `Pending.balanced_or_nestFrom` and `Balanced.unclosedAt_last` are about the second: the tokens end
  with the innermost group open, which is the one opened last.
-/

namespace SqlInlay.Sql

/-! ## Balanced tokens

What is asked of a single parenthesis, and what balanced runs give.  A part of a balanced run need
not be balanced, so `Balanced.allClosed` is proved for any opening parenthesis in it.
-/

/-- Every parenthesis has its partner.  The grammar reads from the left: a token that is no
parenthesis, or a parenthesis with a balanced run and its partner, and then the rest. -/
inductive Balanced : List Token → Prop
  | nil : Balanced []
  | plain {t : Token} {ts : List Token} (hopen : t.kind ≠ .openParen)
      (hclose : t.kind ≠ .closeParen) (hts : Balanced ts) : Balanced (t :: ts)
  | group {opening closing : Token} {inner ts : List Token} (hopen : opening.kind = .openParen)
      (hclose : closing.kind = .closeParen) (hinner : Balanced inner) (hts : Balanced ts) :
      Balanced (opening :: (inner ++ closing :: ts))

/-- A parenthesis that is opened in front of some tokens is closed among them. -/
def ClosedIn (behind : List Token) : Prop :=
  ∃ inner closing rest, behind = inner ++ closing :: rest ∧ Balanced inner ∧
    closing.kind = .closeParen

/-- Every parenthesis that some tokens open is closed among them. -/
def AllClosed (tokens : List Token) : Prop :=
  ∀ front opening behind, tokens = front ++ opening :: behind → opening.kind = .openParen →
    ClosedIn behind

/-- A closing parenthesis in front of which every parenthesis is closed already.  There may be
several in a query; nesting stops at the first. -/
def StrayAt (tokens front : List Token) (closing : Token) : Prop :=
  (∃ back, tokens = front ++ closing :: back) ∧ closing.kind = .closeParen ∧ AllClosed front

/-- An opening parenthesis that is never closed. -/
def UnclosedAt (tokens front : List Token) (opening : Token) : Prop :=
  ∃ back, tokens = front ++ opening :: back ∧ opening.kind = .openParen ∧ ¬ ClosedIn back

lemma ClosedIn.append {behind : List Token} (h : ClosedIn behind) (more : List Token) :
    ClosedIn (behind ++ more) := by
  obtain ⟨inner, closing, rest, rfl, hinner, hclose⟩ := h
  exact ⟨inner, closing, rest ++ more, by simp, hinner, hclose⟩

/-- A token that stands in a list put together of two stands in the one or in the other. -/
lemma split_append {α : Type} {front back front' back' : List α} {x y : α}
    (h : front ++ x :: back = front' ++ y :: back') :
    (∃ mid, front' = front ++ x :: mid ∧ back = mid ++ y :: back') ∨
      (front = front' ∧ x = y ∧ back = back') ∨
      ∃ mid, front = front' ++ y :: mid ∧ back' = mid ++ x :: back := by
  rcases List.append_eq_append_iff.1 h with ⟨mid, rfl, hmid⟩ | ⟨mid, rfl, hmid⟩
  · rcases mid with _ | ⟨z, mid⟩
    · obtain ⟨rfl, rfl⟩ := List.cons.inj hmid
      exact .inr (.inl ⟨(List.append_nil _).symm, rfl, rfl⟩)
    · obtain ⟨rfl, rfl⟩ := List.cons.inj hmid
      exact .inl ⟨mid, rfl, rfl⟩
  · rcases mid with _ | ⟨z, mid⟩
    · obtain ⟨rfl, rfl⟩ := List.cons.inj hmid
      exact .inr (.inl ⟨List.append_nil _, rfl, rfl⟩)
    · obtain ⟨rfl, rfl⟩ := List.cons.inj hmid
      exact .inr (.inr ⟨mid, rfl, rfl⟩)

/-- Balanced tokens close every parenthesis that they open.  The parenthesis that is asked about is
the one that opens the group, one inside the group, or one behind it. -/
lemma Balanced.allClosed {tokens : List Token} (h : Balanced tokens) : AllClosed tokens := by
  induction h with
  | nil =>
    intro front opening behind hsplit
    simp at hsplit
  | @plain t ts hopen hclose _ ih =>
    intro front opening behind hsplit hopening
    rcases List.cons_eq_append_iff.1 hsplit with ⟨rfl, hhead⟩ | ⟨front, rfl, hts⟩
    · obtain ⟨rfl, rfl⟩ := List.cons.inj hhead
      exact absurd hopening hopen
    · exact ih front opening behind hts hopening
  | @group first last inner ts hopen hclose hinner hts ihinner ihts =>
    intro front opening behind hsplit hopening
    have hlast : opening ≠ last := by
      rintro rfl
      rw [hopening] at hclose
      cases hclose
    rcases List.cons_eq_append_iff.1 hsplit with ⟨rfl, hhead⟩ | ⟨front, rfl, hrest⟩
    · obtain ⟨rfl, rfl⟩ := List.cons.inj hhead
      exact ⟨inner, last, ts, rfl, hinner, hclose⟩
    · rcases split_append hrest with ⟨mid, -, hmid⟩ | ⟨-, hsame, -⟩ | ⟨mid, hmid, rfl⟩
      · exact ihts mid opening behind hmid hopening
      · exact absurd hsame.symm hlast
      · exact (ihinner front opening mid hmid hopening).append _

/-! ## Folding

Blanks leave no nodes and groups leave one for many tokens, so what nesting makes of a run is a
relation that follows the grammar.
-/

/-- The nodes that balanced tokens fold to: blanks leave nothing, any other token leaves a node, and
what stands between two partners is a group. -/
inductive Folds (dialect : Dialect) : List Token → List Node → Prop
  | nil : Folds dialect [] []
  | blank {t : Token} {ts : List Token} {ns : List Node} (h : t.kind = .blank)
      (hts : Folds dialect ts ns) : Folds dialect (t :: ts) ns
  | comment {t : Token} {ts : List Token} {ns : List Node} (h : t.isComment = true) (fresh : Bool)
      (hts : Folds dialect ts ns) : Folds dialect (t :: ts) (.comment ⟨t, fresh⟩ :: ns)
  | token {t : Token} {ts : List Token} {ns : List Node} (hopen : t.kind ≠ .openParen)
      (hclose : t.kind ≠ .closeParen) (h : t.isTrivia = false) (hts : Folds dialect ts ns) :
      Folds dialect (t :: ts) (.token t :: ns)
  | group {opening closing : Token} {inner ts : List Token} {inside ns : List Node}
      (hopen : opening.kind = .openParen) (hclose : closing.kind = .closeParen)
      (hinner : Folds dialect inner inside) (hts : Folds dialect ts ns) :
      Folds dialect (opening :: (inner ++ closing :: ts))
        (groupOf dialect opening inside closing :: ns)

/-- Nesting a token that is no parenthesis leaves a node for it, or none if it is a blank. -/
lemma exists_nestFrom_plain {t : Token} (hopen : t.kind ≠ .openParen)
    (hclose : t.kind ≠ .closeParen) (dialect : Dialect) (fresh : Bool) (done : List Node)
    (frames : List Frame) :
    ∃ fresh' nodes, (∀ ts ns, Folds dialect ts ns → Folds dialect (t :: ts) (nodes ++ ns)) ∧
      ∀ ts, nestFrom dialect fresh done frames (t :: ts) =
        nestFrom dialect fresh' (nodes.reverse ++ done) frames ts := by
  cases hkind : t.kind with
  | openParen => exact absurd hkind hopen
  | closeParen => exact absurd hkind hclose
  | blank =>
    exact ⟨_, [], fun ts ns => .blank hkind, fun ts => by simp only [nestFrom, hkind]; rfl⟩
  | lineComment | blockComment =>
    have hcomment : t.isComment = true := by simp [Token.isComment, hkind]
    exact ⟨false, [.comment ⟨t, fresh⟩], fun ts ns => .comment hcomment fresh,
      fun ts => by simp only [nestFrom, hkind]; rfl⟩
  | _ =>
    have htrivia : t.isTrivia = false := by simp [Token.isTrivia, Token.isComment, hkind]
    exact ⟨false, [.token t], fun ts ns => .token hopen hclose htrivia,
      fun ts => by simp only [nestFrom, hkind]; rfl⟩

/-- **Nesting walks over a balanced run**: it puts down the nodes of the run and leaves the groups
around it as they were. -/
lemma Balanced.exists_nestFrom {tokens : List Token} (h : Balanced tokens) (dialect : Dialect)
    (fresh : Bool) (done : List Node) (frames : List Frame) :
    ∃ fresh' nodes, Folds dialect tokens nodes ∧
      ∀ rest, nestFrom dialect fresh done frames (tokens ++ rest) =
        nestFrom dialect fresh' (nodes.reverse ++ done) frames rest := by
  induction h generalizing fresh done frames with
  | nil => exact ⟨fresh, [], .nil, fun rest => rfl⟩
  | plain hopen hclose _ ih =>
    obtain ⟨fresh', head, hfolds, hhead⟩ :=
      exists_nestFrom_plain hopen hclose dialect fresh done frames
    obtain ⟨fresh'', tail, htail, hrun⟩ := ih fresh' (head.reverse ++ done) frames
    refine ⟨fresh'', head ++ tail, hfolds _ _ htail, fun rest => ?_⟩
    rw [List.cons_append, hhead, hrun, List.reverse_append, List.append_assoc]
  | @group opening closing inner ts hopen hclose _ _ ihinner ihts =>
    obtain ⟨fresh₁, inside, hinside, hinner⟩ := ihinner false [] (⟨opening, done⟩ :: frames)
    obtain ⟨fresh₂, nodes, hnodes, hrun⟩ :=
      ihts false (groupOf dialect opening inside closing :: done) frames
    refine ⟨fresh₂, groupOf dialect opening inside closing :: nodes,
      .group hopen hclose hinside hnodes, fun rest => ?_⟩
    rw [List.cons_append, List.append_assoc, List.cons_append]
    simp only [nestFrom, hopen, hinner, hclose, List.append_nil, List.reverse_reverse, hrun]
    simp

/-! ## Stray and pending parentheses

Both lists of tokens are put together from balanced runs, so nesting can walk over them run by run
until it comes to the parenthesis that it stops at.
-/

/-- Balanced runs divided by parentheses that are never closed.  Tokens without a stray parenthesis
are of this form. -/
inductive Pending : List Token → Prop
  | balanced {ts : List Token} (h : Balanced ts) : Pending ts
  | opening {front back : List Token} {opening : Token} (hfront : Balanced front)
      (hopen : opening.kind = .openParen) (hback : Pending back) :
      Pending (front ++ opening :: back)

/-- A balanced run with a token in front that is no parenthesis, or with a group in front. -/
lemma Pending.plain {t : Token} {ts : List Token} (hopen : t.kind ≠ .openParen)
    (hclose : t.kind ≠ .closeParen) (h : Pending ts) : Pending (t :: ts) := by
  cases h with
  | balanced h => exact .balanced (.plain hopen hclose h)
  | opening hfront hopening hback => exact .opening (.plain hopen hclose hfront) hopening hback

lemma Pending.group {opening closing : Token} {inner ts : List Token}
    (hopen : opening.kind = .openParen) (hclose : closing.kind = .closeParen)
    (hinner : Balanced inner) (h : Pending ts) :
    Pending (opening :: (inner ++ closing :: ts)) := by
  cases h with
  | balanced h => exact .balanced (.group hopen hclose hinner h)
  | @opening front back last hfront hopening hback =>
    have hall := Pending.opening (.group hopen hclose hinner hfront) hopening hback
    simpa using hall

/-- The first parenthesis without a partner is a stray one behind a balanced run, or there are only
ones that are never closed.  The induction is on the number of tokens: behind a parenthesis that is
closed it goes on behind its partner. -/
lemma exists_stray_or_pending (tokens : List Token) :
    (∃ front closing back, tokens = front ++ closing :: back ∧ Balanced front ∧
      closing.kind = .closeParen) ∨ Pending tokens := by
  induction hlength : tokens.length using Nat.strongRecOn generalizing tokens with
  | _ n ih =>
    subst hlength
    rcases tokens with _ | ⟨t, ts⟩
    · exact .inr (.balanced .nil)
    by_cases hclose : t.kind = .closeParen
    · exact .inl ⟨[], t, ts, rfl, .nil, hclose⟩
    have hts := ih ts.length (by simp) ts rfl
    by_cases hopen : t.kind = .openParen
    · rcases hts with ⟨inner, closing, back, rfl, hinner, hclosing⟩ | hpending
      · -- the parenthesis is closed, so the tokens behind its partner decide
        have hback := ih back.length (by simp; omega) back rfl
        rcases hback with ⟨front, stray, rest, rfl, hfront, hstray⟩ | hpending
        · exact .inl ⟨t :: (inner ++ closing :: front), stray, rest, by simp,
            .group hopen hclosing hinner hfront, hstray⟩
        · exact .inr (.group hopen hclosing hinner hpending)
      · exact .inr (.opening .nil hopen hpending)
    · rcases hts with ⟨front, stray, rest, rfl, hfront, hstray⟩ | hpending
      · exact .inl ⟨t :: front, stray, rest, rfl, .plain hopen hclose hfront, hstray⟩
      · exact .inr (.plain hopen hclose hpending)

/-- Nesting fails at a stray parenthesis. -/
lemma nestFrom_stray {front : List Token} {closing : Token} (hfront : Balanced front)
    (hclose : closing.kind = .closeParen) (back : List Token) (dialect : Dialect) (fresh : Bool)
    (done : List Node) :
    nestFrom dialect fresh done [] (front ++ closing :: back) =
      .error (.structural closing.offset .unmatchedClosing) := by
  obtain ⟨fresh', nodes, -, hrun⟩ := hfront.exists_nestFrom dialect fresh done []
  rw [hrun]
  simp only [nestFrom, hclose]

/-- Nesting accepts balanced tokens. -/
lemma Balanced.exists_nodes {tokens : List Token} (h : Balanced tokens) (dialect : Dialect)
    (fresh : Bool) :
    ∃ nodes, Folds dialect tokens nodes ∧ nestFrom dialect fresh [] [] tokens = .ok nodes := by
  obtain ⟨fresh', nodes, hfolds, hrun⟩ := h.exists_nestFrom dialect fresh [] []
  refine ⟨nodes, hfolds, ?_⟩
  have hall := hrun []
  rw [List.append_nil] at hall
  simp [hall, nestFrom]

/-- Nesting fails at the last parenthesis that is never closed, if there is one.  It is the
innermost frame that is open at the end of the tokens, for all that stands behind it is balanced. -/
lemma Pending.balanced_or_nestFrom {tokens : List Token} (h : Pending tokens) :
    Balanced tokens ∨ ∃ front opening back, tokens = front ++ opening :: back ∧
      opening.kind = .openParen ∧ Balanced back ∧ ∀ dialect fresh done frames,
        nestFrom dialect fresh done frames tokens =
          .error (.structural opening.offset .unclosedOpening) := by
  induction h with
  | balanced h => exact .inl h
  | @opening front back opening hfront hopen hback ih =>
    have hstep : ∀ dialect fresh done frames, ∃ done',
        nestFrom dialect fresh done frames (front ++ opening :: back) =
          nestFrom dialect false [] (⟨opening, done'⟩ :: frames) back := by
      intro dialect fresh done frames
      obtain ⟨fresh', nodes, -, hrun⟩ := hfront.exists_nestFrom dialect fresh done frames
      exact ⟨nodes.reverse ++ done, by rw [hrun]; simp only [nestFrom, hopen]⟩
    right
    rcases ih with hbalanced | ⟨front', last, back', rfl, hlast, hback', hfails⟩
    · refine ⟨front, opening, back, rfl, hopen, hbalanced, fun dialect fresh done frames => ?_⟩
      obtain ⟨done', hdone⟩ := hstep dialect fresh done frames
      obtain ⟨fresh', nodes, -, hrun⟩ :=
        hbalanced.exists_nestFrom dialect false [] (⟨opening, done'⟩ :: frames)
      have hend := hrun []
      rw [List.append_nil] at hend
      rw [hdone, hend, nestFrom]
    · refine ⟨front ++ opening :: front', last, back', by simp, hlast, hback',
        fun dialect fresh done frames => ?_⟩
      obtain ⟨done', hdone⟩ := hstep dialect fresh done frames
      rw [hdone, hfails]

/-- No parenthesis of pending tokens is stray: nesting would fail there, and it does not. -/
lemma Pending.not_stray {front back : List Token} {closing : Token}
    (h : Pending (front ++ closing :: back)) (hfront : Balanced front) :
    closing.kind ≠ .closeParen := by
  intro hclose
  have hfails := nestFrom_stray hfront hclose back .native true []
  rcases h.balanced_or_nestFrom with hbalanced | ⟨-, opening, -, -, -, -, hunclosed⟩
  · obtain ⟨nodes, -, hnodes⟩ := hbalanced.exists_nodes .native true
    rw [hnodes] at hfails
    cases hfails
  · rw [hunclosed] at hfails
    simp at hfails

/-- A parenthesis in front of pending tokens is not closed in them. -/
lemma Pending.not_closedIn {tokens : List Token} (h : Pending tokens) : ¬ ClosedIn tokens := by
  rintro ⟨inner, closing, rest, rfl, hinner, hclose⟩
  exact h.not_stray hinner hclose

/-- In front of a closing parenthesis of pending tokens, some parenthesis is open. -/
lemma Pending.not_allClosed {front back : List Token} {closing : Token}
    (h : Pending (front ++ closing :: back)) (hclose : closing.kind = .closeParen) :
    ¬ AllClosed front := by
  intro hclosed
  rcases exists_stray_or_pending front with ⟨first, stray, rest, rfl, hfirst, hstray⟩ | hpending
  · rw [List.append_assoc, List.cons_append] at h
    exact h.not_stray hfirst hstray
  · cases hpending with
    | balanced hfront => exact h.not_stray hfront hclose
    | @opening first back opening hfirst hopen hback =>
      exact hback.not_closedIn (hclosed first opening back rfl hopen)

/-- A closing parenthesis behind a balanced run is the first one that is stray. -/
lemma Balanced.strayAt_first {front : List Token} {closing : Token} (hfront : Balanced front)
    (hclose : closing.kind = .closeParen) (back : List Token) :
    StrayAt (front ++ closing :: back) front closing ∧
      ∀ front' closing', StrayAt (front ++ closing :: back) front' closing' →
        front.length ≤ front'.length := by
  refine ⟨⟨⟨back, rfl⟩, hclose, hfront.allClosed⟩, ?_⟩
  rintro front' closing' ⟨⟨back', hsplit⟩, hclose', hclosed⟩
  rcases split_append hsplit with ⟨mid, rfl, -⟩ | ⟨rfl, -, -⟩ | ⟨mid, rfl, -⟩
  · simp
  · exact Nat.le_refl _
  · exact absurd hclosed ((Pending.balanced hfront).not_allClosed hclose')

/-- An opening parenthesis in front of a balanced run is the last one that is never closed. -/
lemma Balanced.unclosedAt_last {back : List Token} {opening : Token} (hback : Balanced back)
    (hopen : opening.kind = .openParen) (front : List Token) :
    UnclosedAt (front ++ opening :: back) front opening ∧
      ∀ front' opening', UnclosedAt (front ++ opening :: back) front' opening' →
        front'.length ≤ front.length := by
  refine ⟨⟨back, rfl, hopen, (Pending.balanced hback).not_closedIn⟩, ?_⟩
  rintro front' opening' ⟨back', hsplit, hopen', hunclosed⟩
  rcases split_append hsplit with ⟨mid, rfl, rfl⟩ | ⟨rfl, -, -⟩ | ⟨mid, rfl, -⟩
  · exact absurd (hback.allClosed mid opening' back' rfl hopen') hunclosed
  · exact Nat.le_refl _
  · simp

/-- No parenthesis of pending tokens has every parenthesis in front of it closed. -/
lemma Pending.not_strayAt {tokens : List Token} (h : Pending tokens) :
    ¬ ∃ front closing, StrayAt tokens front closing := by
  rintro ⟨front, closing, ⟨back, rfl⟩, hclose, hclosed⟩
  exact h.not_allClosed hclose hclosed

/-! ## Segmenting

Segmentation is nesting, and a division of what comes of it, which never fails.
-/

/-- **Segmentation fails for parentheses only.**  It accepts the tokens whose parentheses balance.
Otherwise it names the first closing parenthesis in front of which every parenthesis is closed, and
if there is none, the last opening one that is never closed. -/
theorem segment_parentheses (dialect : Dialect) (tokens : List Token) :
    ((∃ script, segment dialect tokens = .ok script) ↔ Balanced tokens) ∧
      ∀ failure, segment dialect tokens = .error failure →
        (∃ front closing, StrayAt tokens front closing ∧
          (∀ front' closing', StrayAt tokens front' closing' → front.length ≤ front'.length) ∧
          failure = .structural closing.offset .unmatchedClosing) ∨
        (¬ ∃ front closing, StrayAt tokens front closing) ∧
          ∃ front opening, UnclosedAt tokens front opening ∧
            (∀ front' opening', UnclosedAt tokens front' opening' →
              front'.length ≤ front.length) ∧
            failure = .structural opening.offset .unclosedOpening := by
  have hsegment : segment dialect tokens =
      (nestFrom dialect true [] [] tokens).map (statementsOf dialect) := rfl
  rcases exists_stray_or_pending tokens with ⟨front, closing, back, rfl, hfront, hclose⟩ | hpending
  · -- a stray parenthesis behind a balanced run
    rw [nestFrom_stray hfront hclose] at hsegment
    refine ⟨⟨fun ⟨script, hscript⟩ => ?_, fun hbalanced => ?_⟩, fun failure hfailure => .inl ?_⟩
    · simp [hsegment, Except.map] at hscript
    · exact absurd hclose ((Pending.balanced hbalanced).not_stray hfront)
    · obtain ⟨hstray, hfirst⟩ := hfront.strayAt_first hclose back
      rw [hsegment] at hfailure
      exact ⟨front, closing, hstray, hfirst, (Except.error.inj hfailure).symm⟩
  · rcases hpending.balanced_or_nestFrom with hbalanced | ⟨front, opening, back, rfl, hopen, hback,
      hfails⟩
    · -- nothing is wrong
      obtain ⟨nodes, -, hnodes⟩ := hbalanced.exists_nodes dialect true
      rw [hnodes] at hsegment
      refine ⟨⟨fun _ => hbalanced, fun _ => ⟨_, hsegment⟩⟩, fun failure hfailure => ?_⟩
      simp [hsegment, Except.map] at hfailure
    · -- a parenthesis that is never closed, in front of a balanced run
      obtain ⟨hunclosed, hlast⟩ := hback.unclosedAt_last hopen front
      rw [hfails] at hsegment
      refine ⟨⟨fun ⟨script, hscript⟩ => ?_, fun hbalanced => ?_⟩, fun failure hfailure => .inr ?_⟩
      · simp [hsegment, Except.map] at hscript
      · exact absurd (hbalanced.allClosed front opening back rfl hopen)
          (Pending.balanced hback).not_closedIn
      · rw [hsegment] at hfailure
        exact ⟨hpending.not_strayAt, front, opening, hunclosed, hlast,
          (Except.error.inj hfailure).symm⟩

end SqlInlay.Sql
