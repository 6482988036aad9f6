import SqlInlay.Proofs.Sql.Tracing
import SqlInlay.Sql.Layout

/-!
# The course of printing

Printing a script puts its strokes on a page, in order, and between them breaks lines, sets the
indentation of lines that carry on, and separates statements.  Each of these is a `Move`, and a
script that is printed is a list of moves that is run.  What printing decides, by the widths of
lines and groups, is which moves to make; once they are made, how they were decided does not matter.

**Two runs.**  A script and its recasting are printed by the same moves, recast.  `Charted` says so,
and it is proved function by function along the recursion of printing, with the two pages `Alike`
all the way: that is what makes every decision about widths fall the same way in both.  The lemmas
here are the single moves; `Page.Alike.run` puts them together.

**Lawful breaks.**  Moves break lines only where a break does no harm: behind an opening
parenthesis, a mark, a comment or the words that start a clause, and in front of a closing
parenthesis, a mark, a comment or a keyword.  Statements are separated behind marks and comments
only, and a token that would move up over a separator is never put right behind a mark unless it
starts a line.  `Lawful` says all this of a list of moves.

**Why both.**  To lay out a layout is to print a script that was read from a page.  What is on the
page is known from the moves; that reading does not find more there than was put down, such as a
comment on a line of its own that had none, is known from where lines break.
-/

namespace SqlInlay.Sql

/-! ## Moves

Moves are what the two runs have in common, so they are recast stroke by stroke, and everything else
about them stays.
-/

/-- What printing does to a page, one thing after the other.  There are no others: whatever printing
decides, it comes to one of these. -/
inductive Move where
  | breakAt (indent : Nat)
  | continueAt (indent : Nat)
  | separate
  | put (s : Stroke)
deriving DecidableEq, Repr

namespace Page

/-- A stroke put on a page. -/
def put (case : KeywordCase) (p : Page) : Stroke → Page
  | .write t => if t.kind.movesUp then p.punctuate case t else p.write case t
  | .glue t => p.glue t
  | .mark kind text => p.attach kind text
  | .comment c => p.comment c

/-- One move. -/
def step (case : KeywordCase) (p : Page) : Move → Page
  | .breakAt indent => p.breakAt indent
  | .continueAt indent => p.continueAt indent
  | .separate => p.separate
  | .put s => p.put case s

/-- Some moves. -/
def run (case : KeywordCase) (p : Page) (ms : List Move) : Page := ms.foldl (step case) p

@[simp] lemma run_append (case : KeywordCase) (p : Page) (ms ns : List Move) :
    p.run case (ms ++ ns) = (p.run case ms).run case ns := List.foldl_append

end Page

namespace Move

/-- A move with other tokens. -/
def recast (f : Recasting) : Move → Move
  | put s => put (s.recast f)
  | m => m

/-- The stroke of a move that puts one. -/
def stroke? : Move → Option Stroke
  | put s => some s
  | _ => none

end Move

/-- The strokes that moves put. -/
def strokesOf (ms : List Move) : List Stroke := ms.filterMap Move.stroke?

@[simp] lemma strokesOf_put (s : Stroke) (ms : List Move) :
    strokesOf (.put s :: ms) = s :: strokesOf ms := rfl

@[simp] lemma strokesOf_append (ms ns : List Move) :
    strokesOf (ms ++ ns) = strokesOf ms ++ strokesOf ns := List.filterMap_append

/-! ## Lawful breaks

Whether a break does harm depends on the strokes in front of it and on the one behind, and on
nothing between.  So `Lawful` goes through the moves with what has been put down and what is still
to come.
-/

namespace Stroke

/-- A line may break behind the stroke. -/
def allowsBehind : Stroke → Bool
  | write t => t.kind == .openParen || t.isClauseWord
  | glue t => t.kind == .openParen
  | mark _ _ => true
  | comment _ => true

/-- A line may break in front of the stroke. -/
def allowsBefore : Stroke → Bool
  | write t => t.kind == .closeParen || t.isKeyword
  | glue t => t.kind == .closeParen
  | mark _ _ => true
  | comment _ => true

end Stroke

namespace Stroke

/-- The stroke is a mark. -/
def isMark : Stroke → Bool
  | mark _ _ => true
  | _ => false

/-- The stroke is a mark or a comment. -/
def isAside : Stroke → Bool
  | mark _ _ => true
  | comment _ => true
  | _ => false

end Stroke

/-- A line may break behind some strokes, whatever comes next. -/
def AllowsBehind (es : List Stroke) : Prop := ∀ s ∈ es.getLast?, s.allowsBehind = true

/-- A line may break between some strokes and those that come next. -/
def AllowsBetween (es rest : List Stroke) : Prop :=
  ∀ s ∈ es.getLast?, ∀ r ∈ rest.head?, s.allowsBehind = true ∨ r.allowsBefore = true

lemma AllowsBehind.between {es : List Stroke} (h : AllowsBehind es) (rest : List Stroke) :
    AllowsBetween es rest := fun s hs _ _ => .inl (h s hs)

lemma allowsBehind_concat {es : List Stroke} {s : Stroke} (h : s.allowsBehind = true) :
    AllowsBehind (es ++ [s]) := by
  intro r hr
  obtain rfl : s = r := by simpa using hr
  exact h

lemma allowsBetween_of_before {es rest : List Stroke} {r : Stroke} (h : r.allowsBefore = true) :
    AllowsBetween es (r :: rest) := by
  intro s _ q hq
  obtain rfl : r = q := by simpa using hq
  exact .inr h

/-- Some strokes end in a mark or a comment. -/
def EndsAside (es : List Stroke) : Prop := ∃ s ∈ es.getLast?, s.isAside = true

lemma EndsAside.allowsBehind {es : List Stroke} (h : EndsAside es) : AllowsBehind es := by
  obtain ⟨s, hs, haside⟩ := h
  intro r hr
  obtain rfl : s = r := Option.some.inj (hs.symm.trans hr)
  cases s <;> simp_all [Stroke.isAside, Stroke.allowsBehind]

/-- Some strokes do not end in a mark. -/
def EndsSteady (es : List Stroke) : Prop := ∀ s ∈ es.getLast?, s.isMark = false

lemma EndsSteady.append {es ss : List Stroke} (h : EndsSteady es) (h' : EndsSteady ss) :
    EndsSteady (es ++ ss) := by
  intro s hs
  rcases List.eq_nil_or_concat ss with rfl | ⟨front, r, rfl⟩
  · exact h s (by simpa using hs)
  · exact h' s (by simpa [← List.append_assoc] using hs)

lemma endsSteady_concat (es : List Stroke) {s : Stroke} (h : s.isMark = false) :
    EndsSteady (es ++ [s]) := by
  intro r hr
  obtain rfl : s = r := by simpa using hr
  exact h

/-- Behind some strokes, a token that moves up is written where the page stands: it starts a line,
or there is no mark in front of it. -/
def Page.Steady (p : Page) (es : List Stroke) : Prop := p.fresh.isSome = true ∨ EndsSteady es

/-- Behind the strokes `es` and in front of `rest`, the move does no harm to a page: a break comes
where the strokes allow one, statements part behind a mark or a comment, and a token that moves up
finds its place. -/
def Move.Allowed (p : Page) (es rest : List Stroke) : Move → Prop
  | breakAt _ => AllowsBetween es rest
  | continueAt _ => True
  | separate => EndsAside es
  | put s => ∀ t, s = .write t → t.kind.movesUp = true → p.Steady es

/-- Behind the strokes `es` and in front of `rest`, none of the moves does harm. -/
def Lawful (case : KeywordCase) : Page → List Stroke → List Move → List Stroke → Prop
  | _, _, [], _ => True
  | p, es, m :: ms, rest => m.Allowed p es (strokesOf (m :: ms) ++ rest) ∧
      Lawful case (p.step case m) (es ++ strokesOf [m]) ms rest

lemma Lawful.append {case : KeywordCase} {p : Page} {es rest : List Stroke} {ms ns : List Move}
    (hms : Lawful case p es ms (strokesOf ns ++ rest))
    (hns : Lawful case (p.run case ms) (es ++ strokesOf ms) ns rest) :
    Lawful case p es (ms ++ ns) rest := by
  induction ms generalizing p es with
  | nil => simpa [strokesOf, Page.run] using hns
  | cons m ms ih =>
    have hsplit : strokesOf (m :: ms) = strokesOf [m] ++ strokesOf ms := strokesOf_append [m] ms
    rw [hsplit, ← List.append_assoc] at hns
    have hahead : strokesOf (m :: (ms ++ ns)) ++ rest
        = strokesOf (m :: ms) ++ (strokesOf ns ++ rest) := by
      rw [← List.cons_append, strokesOf_append, List.append_assoc]
    exact ⟨hahead ▸ hms.1, ih hms.2 hns⟩

/-! ## Pages alike

A page is more than its lines: where the next stroke goes and how far it is indented are part of it.
Each move is shown to leave pages alike that were alike before.
-/

/-- Two pages behind some strokes: their lines are alike, and so is where the next stroke goes.
Where that is an open line, both lines are level: their traces are ones that the strokes can
leave. -/
structure Page.Alike (P : Pair) (es : List Stroke) (p q : Page) : Prop where
  fresh : p.fresh = q.fresh
  continuation : p.continuation = q.continuation
  lines : List.Forall₂ (Line.Alike P.likeness) p.lines q.lines
  level : p.fresh = none → ∀ l ∈ p.lines.head?, ∀ m ∈ q.lines.head?, l.isClosed = false →
    l.Level P es m

namespace Page.Alike

variable {P : Pair} {es rest : List Stroke} {p q : Page}

lemma empty (P : Pair) : Page.Alike P [] .empty .empty :=
  ⟨rfl, rfl, .nil, fun _ l hl => by simp [Page.empty] at hl⟩

lemma breakAt (h : p.Alike P es q) (indent : Nat) : (p.breakAt indent).Alike P es
    (q.breakAt indent) :=
  ⟨rfl, h.continuation, h.lines, nofun⟩

lemma continueAt (h : p.Alike P es q) (indent : Nat) : (p.continueAt indent).Alike P es
    (q.continueAt indent) :=
  ⟨h.fresh, rfl, h.lines, h.level⟩

lemma separate (h : p.Alike P es q) : p.separate.Alike P es q.separate := by
  refine ⟨rfl, h.continuation, .cons ⟨rfl, .nil, rfl⟩ h.lines, fun _ l hl m _ hclosed => ?_⟩
  obtain rfl : Line.empty 0 = l := by simpa [Page.separate, Page.startLine] using hl
  simp [Line.isClosed, Line.empty] at hclosed

lemma column (h : p.Alike P es q) : p.column = q.column := by
  have hlines := h.lines
  unfold Page.column
  rw [← h.fresh]
  rcases p.fresh with _ | i
  · generalize p.lines = ls, q.lines = ms at hlines
    cases hlines with
    | nil => rfl
    | cons hl _ => exact hl.width
  · rfl

lemma indent (h : p.Alike P es q) : p.indent = q.indent := by
  have hlines := h.lines
  unfold Page.indent
  generalize p.lines = ls, q.lines = ms at hlines
  cases hlines with
  | nil => rfl
  | cons hl _ => exact hl.indent

/-- Where the next token goes is on an open line of each page. -/
lemma ready (h : p.Alike P es q) :
    ∃ l m ls ms, p.ready = ⟨l :: ls, none, p.continuation⟩ ∧
      q.ready = ⟨m :: ms, none, q.continuation⟩ ∧ l.Level P es m ∧
      List.Forall₂ (Line.Alike P.likeness) ls ms := by
  obtain ⟨lines, fresh, continuation⟩ := p
  obtain ⟨lines', fresh', continuation'⟩ := q
  obtain ⟨hfresh, hcontinuation, hlines, hlevel⟩ := h
  simp only at hfresh hcontinuation hlines hlevel
  subst hfresh hcontinuation
  have hstart : ∀ indent : Nat, ∃ l m ls ms,
      (⟨.empty indent :: lines, none, continuation⟩ : Page) = ⟨l :: ls, none, continuation⟩ ∧
      (⟨.empty indent :: lines', none, continuation⟩ : Page) = ⟨m :: ms, none, continuation⟩ ∧
      l.Level P es m ∧ List.Forall₂ (Line.Alike P.likeness) ls ms := fun indent =>
    ⟨.empty indent, .empty indent, lines, lines', rfl, rfl, .empty P es indent, hlines⟩
  rcases fresh with _ | indent
  · cases hlines with
    | nil => exact hstart continuation
    | @cons l m ls ms hl hls =>
      simp only [Page.ready, ← hl.isClosed]
      split
      · exact hstart continuation
      · rename_i hclosed
        exact ⟨l, m, ls, ms, rfl, rfl, hlevel rfl l rfl m rfl (by simpa using hclosed), hls⟩
  · exact hstart indent

/-- A line on which something was put, on both pages. -/
lemma onLast {es' : List Stroke} {l m : Line} {ls ms : List Line} {c c' : Nat}
    (hc : c = c') (hl : l.Alike P.likeness m) (hls : List.Forall₂ (Line.Alike P.likeness) ls ms)
    (hlevel : l.isClosed = false → l.Level P es' m) :
    Page.Alike P es' ⟨l :: ls, none, c⟩ ⟨m :: ms, none, c'⟩ := by
  refine ⟨rfl, hc, .cons hl hls, fun _ k hk k' hk' hclosed => ?_⟩
  obtain rfl : l = k := by simpa using hk
  obtain rfl : m = k' := by simpa using hk'
  exact hlevel hclosed

/-- A stroke put where the page stands. -/
lemma take (h : p.Alike P es q) {s : Stroke} (hall : P.all = es ++ s :: rest) :
    (p.ready.onLast (·.take P.style.keywordCase s)).Alike P (es ++ [s])
      (q.ready.onLast (·.take P.style'.keywordCase (s.recast P.recasting))) := by
  obtain ⟨l, m, ls, ms, hp, hq, hl, hls⟩ := h.ready
  have htaken := hl.take hall
  rw [hp, hq]
  exact onLast h.continuation htaken.toAlike hls fun _ => htaken

/-- A comment put on an open line. -/
lemma comment_line {l m : Line} (h : l.Level P es m) {c : Comment}
    (hall : P.all = es ++ .comment c :: rest) :
    (l.comment c).Alike P.likeness (m.comment (c.recast P.recasting)) ∧
      ((l.comment c).isClosed = false →
        (l.comment c).Level P (es ++ [.comment c]) (m.comment (c.recast P.recasting))) := by
  have htext : (P.recasting c.token).text = c.token.text :=
    P.text (.comment c) (by simp [hall]) (by simp)
  have hline : (c.recast P.recasting).isLine = c.isLine := by
    simp [Comment.isLine, Comment.recast]
  unfold Line.comment
  rw [hline]
  split
  · refine ⟨⟨h.indent, h.pieces, ?_⟩, fun hclosed => ?_⟩
    · simp [Line.annotate, Comment.recast, htext]
    · simp [Line.annotate, Line.isClosed] at hclosed
  · have htaken := h.take hall
    exact ⟨htaken.toAlike, fun _ => htaken⟩

/-- A comment on both pages. -/
lemma comment (h : p.Alike P es q) {c : Comment} (hall : P.all = es ++ .comment c :: rest) :
    (p.comment c).Alike P (es ++ [.comment c]) (q.comment (c.recast P.recasting)) := by
  have hown : (c.recast P.recasting).ownLine = c.ownLine := rfl
  unfold Page.comment
  rw [hown, h.fresh, h.continuation]
  split
  · obtain ⟨hl, hlevel⟩ := comment_line (.empty P es (q.fresh.getD q.continuation)) hall
    exact onLast h.continuation hl h.lines hlevel
  · obtain ⟨l, m, ls, ms, hp, hq, hl, hls⟩ := h.ready
    obtain ⟨hc, hlevel⟩ := comment_line hl hall
    rw [hp, hq]
    exact onLast h.continuation hc hls hlevel

/-- A mark goes to the same line of both pages. -/
lemma onLastCode? {ls ms : List Line} (h : List.Forall₂ (Line.Alike P.likeness) ls ms)
    {F : Line → Line} (hF : ∀ l m, l.Alike P.likeness m → (F l).Alike P.likeness (F m)) :
    (Page.onLastCode? F ls = none ∧ Page.onLastCode? F ms = none) ∨
      ∃ ls' ms', Page.onLastCode? F ls = some ls' ∧ Page.onLastCode? F ms = some ms' ∧
        List.Forall₂ (Line.Alike P.likeness) ls' ms' ∧
        ∀ l ∈ ls'.head?, ∀ m ∈ ms'.head?, l.isClosed = false →
          ∃ k k', l = F k ∧ m = F k' := by
  induction h with
  | nil => exact .inl ⟨rfl, rfl⟩
  | @cons l m ls ms hl hls ih =>
    simp only [Page.onLastCode?, ← hl.isEmpty]
    split
    · rename_i hempty
      rcases ih with ⟨hnone, hnone'⟩ | ⟨ls', ms', hsome, hsome', hls', -⟩
      · simp [hnone, hnone']
      · refine .inr ⟨l :: ls', m :: ms', by simp [hsome], by simp [hsome'], .cons hl hls', ?_⟩
        intro k hk k' _ hclosed
        obtain rfl : l = k := by simpa using hk
        simp [Line.isClosed, hempty] at hclosed
    · refine .inr ⟨F l :: ls, F m :: ms, rfl, rfl, .cons (hF l m hl) hls, ?_⟩
      intro k hk k' hk' _
      exact ⟨l, m, by simpa using hk.symm, by simpa using hk'.symm⟩

/-- A mark on both pages. -/
lemma attach (h : p.Alike P es q) {s : Stroke} {kind : Kind} {text : Text}
    (hleaves : Leaves P.recasting (es ++ [s]) (.mark kind text) (.mark kind text)) :
    (p.attach kind text).Alike P (es ++ [s]) (q.attach kind text) := by
  have hattach : ∀ l m : Line, l.Alike P.likeness m →
      (l.attach kind text).Alike P.likeness (m.attach kind text) := fun l m hl =>
    ⟨hl.indent, .cons (.code (P.likeness.refl _)) hl.pieces, hl.note⟩
  have hlevel : ∀ l m : Line, (l.attach kind text).Alike P.likeness (m.attach kind text) →
      (l.attach kind text).isClosed = false →
      (l.attach kind text).Level P (es ++ [s]) (m.attach kind text) := by
    intro l m hl hclosed
    simp only [Line.isClosed, Bool.or_eq_false_iff, Option.isSome_eq_false_iff,
      Option.isNone_iff_eq_none] at hclosed
    exact ⟨hl, hclosed.1, .inr ⟨_, _, rfl, rfl, hleaves⟩⟩
  unfold Page.attach
  rcases onLastCode? h.lines hattach with ⟨hp, hq⟩ | ⟨ls, ms, hp, hq, hlines, hheads⟩
  · rw [hp, hq]
    obtain ⟨l, m, ls, ms, hp, hq, hl, hls⟩ := h.ready
    rw [hp, hq]
    have halike := hattach l m hl.toAlike
    exact onLast h.continuation halike hls (hlevel l m halike)
  · rw [hp, hq]
    refine ⟨h.fresh, h.continuation, hlines, fun _ l hl m hm hclosed => ?_⟩
    obtain ⟨k, k', rfl, rfl⟩ := hheads l hl m hm hclosed
    refine hlevel k k' ?_ hclosed
    generalize ls = ls', ms = ms' at hlines hl hm
    cases hlines with
    | nil => simp at hl
    | cons halike _ =>
      obtain rfl := Option.some.inj hl
      obtain rfl := Option.some.inj hm
      exact halike

/-- **One stroke on both pages** leaves them alike.  The strokes in front of it and behind it are
those of the pair, for whether it needs a space is known from them. -/
lemma put (h : p.Alike P es q) {s : Stroke} (hall : P.all = es ++ s :: rest) :
    (p.put P.style.keywordCase s).Alike P (es ++ [s])
      (q.put P.style'.keywordCase (s.recast P.recasting)) := by
  cases s with
  | glue t => exact h.take hall
  | comment c => exact h.comment hall
  | mark kind text => exact h.attach (.put es (.mark kind text) false (by simp))
  | write t =>
    simp only [Page.put, Stroke.recast_write, Recasting.kind]
    split
    · rename_i hmoves
      have htext : (P.recasting t).text = t.text := P.recasting.text_eq t <| by
        unfold Token.isKeyword
        split <;> simp_all [Kind.movesUp]
      have hclosed : p.lines.head?.any (·.isClosed) = q.lines.head?.any (·.isClosed) := by
        have hlines := h.lines
        generalize p.lines = ls, q.lines = ms at hlines
        cases hlines with
        | nil => rfl
        | cons hl _ => simpa using hl.isClosed
      unfold Page.punctuate
      rw [h.fresh, hclosed, P.recasting.kind, htext]
      split
      · have hleaves := Leaves.hoist (f := P.recasting) es t
        rw [htext] at hleaves
        exact h.attach hleaves
      · exact h.take hall
    · exact h.take hall

/-- **A run on both pages** leaves them alike, by induction over the moves. -/
lemma run (h : p.Alike P es q) {ms : List Move} (hall : P.all = es ++ (strokesOf ms ++ rest)) :
    (p.run P.style.keywordCase ms).Alike P (es ++ strokesOf ms)
      (q.run P.style'.keywordCase (ms.map (·.recast P.recasting))) := by
  induction ms generalizing es p q with
  | nil => simpa [Page.run, strokesOf] using h
  | cons m ms ih =>
    cases m with
    | put s =>
      rw [strokesOf_put, List.cons_append] at hall
      have hms := ih (h.put hall) (by simpa using hall)
      rw [List.append_assoc] at hms
      exact hms
    | breakAt indent => exact ih (h.breakAt indent) hall
    | continueAt indent => exact ih (h.continueAt indent) hall
    | separate => exact ih h.separate hall

end Page.Alike

end SqlInlay.Sql
