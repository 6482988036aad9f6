import SqlInlay.Proofs.Sql.Entries
import SqlInlay.Proofs.Sql.Lexemes
import Mathlib.Data.List.Induction

/-!
# What a page shows

`Page.shown` reads off a page what is written on it, line by line and without the blanks: code,
comments among the code, and the line comments at the ends of lines.

**Hoisting.**  Writing appends to what is shown, with one exception: a comma, a closing parenthesis
or a semicolon behind a line comment is put in front of it, for behind it the comment would swallow
it.  `Hoisted` is the order that this leads to, and nothing else changes places.  It keeps every
element and, apart from one another, the order of comments and that of all the rest
(`Hoisted.mem_iff`, `Hoisted.filter_eq`).

**The invariant** of printing is `Page.Holds`: a page shows some entries, up to hoisting; its lines
are tidy; the first one starts at the margin and is not empty.

* `Line.Tidy` — no piece of a line begins or ends with a space, so what is blank in the text of a
  line stands between pieces.
* `Page.Stands` — a page that holds some entries and on which writing can go on where it stands.  An
  operation that writes needs this much, and one that starts a line provides it.
* `Page.Stands.write`, `Page.Stands.attach` and so on — one lemma for each operation of a page says
  that it adds its entry to what the page holds.
-/

namespace SqlInlay.Sql

/-! ## The order of what is shown -/

/-- Kinds that go in front of a line comment rather than behind it. -/
def Kind.movesUp : Kind → Bool
  | .comma | .closeParen | .semicolon => true
  | _ => false

section Hoisted

variable {α β : Type} {kind : α → Kind}

/-- The second list is the first after some marks have moved up: a comma, a closing parenthesis or a
semicolon right behind a line comment comes to stand right in front of it. -/
inductive Hoisted (kind : α → Kind) : List α → List α → Prop
  | refl (l : List α) : Hoisted kind l l
  | step {l front back : List α} {comment mark : α}
      (h : Hoisted kind l (front ++ comment :: mark :: back))
      (hcomment : kind comment = .lineComment) (hmark : (kind mark).movesUp = true) :
      Hoisted kind l (front ++ mark :: comment :: back)

namespace Hoisted

lemma append_right {l m : List α} (h : Hoisted kind l m) (r : List α) :
    Hoisted kind (l ++ r) (m ++ r) := by
  induction h with
  | refl => exact .refl _
  | step _ hcomment hmark ih =>
    simp only [List.append_assoc, List.cons_append] at ih ⊢
    exact .step ih hcomment hmark

/-- A mark moves up over any number of line comments. -/
lemma past {l front notes back : List α} {mark : α}
    (h : Hoisted kind l (front ++ (notes ++ mark :: back)))
    (hnotes : ∀ c ∈ notes, kind c = .lineComment) (hmark : (kind mark).movesUp = true) :
    Hoisted kind l (front ++ mark :: (notes ++ back)) := by
  induction notes using List.reverseRecOn generalizing back with
  | nil => simpa using h
  | append_singleton notes c ih =>
    have hc := hnotes c (by simp)
    have hstep : Hoisted kind l ((front ++ notes) ++ mark :: c :: back) :=
      .step (by simpa using h) hc hmark
    rw [List.append_assoc] at hstep
    have hpast := ih hstep fun d hd => hnotes d (by simp [hd])
    simpa using hpast

/-- Hoisting keeps the last element, unless a line comment comes to stand behind it. -/
lemma getLast? {l m : List α} (h : Hoisted kind l m) {a : α} (ha : m.getLast? = some a) :
    a ∈ l.getLast? ∨ kind a = .lineComment := by
  induction h with
  | refl => exact .inl ha
  | @step front back comment mark _ hcomment _ ih =>
    rcases back with _ | ⟨b, back⟩
    · obtain rfl : comment = a := by simpa using ha
      exact .inr hcomment
    · refine ih ?_
      rw [List.getLast?_append_of_ne_nil _ (by simp)] at ha ⊢
      simpa using ha

/-- Hoisting keeps everything. -/
lemma mem_iff {l m : List α} (h : Hoisted kind l m) {a : α} : a ∈ m ↔ a ∈ l := by
  induction h with
  | refl => rfl
  | step _ _ _ ih =>
    rw [← ih]
    simp only [List.mem_append, List.mem_cons]
    exact or_congr_right or_left_comm

/-- What is hoisted is hoisted as its image, too. -/
lemma map {kind' : β → Kind} {l m : List α} (h : Hoisted kind l m) (f : α → β)
    (hf : ∀ a, kind' (f a) = kind a) : Hoisted kind' (l.map f) (m.map f) := by
  induction h with
  | refl => exact .refl _
  | step _ hcomment hmark ih =>
    simp only [List.map_append, List.map_cons] at ih ⊢
    exact .step ih ((hf _).trans hcomment) (by rw [hf, hmark])

/-- Hoisting among images is hoisting among what they are the images of. -/
lemma of_map {f : β → α} {l : List β} {m : List α} (h : Hoisted kind (l.map f) m) :
    ∃ m', Hoisted (kind ∘ f) l m' ∧ m'.map f = m := by
  induction h with
  | refl => exact ⟨l, .refl l, rfl⟩
  | @step front back comment mark _ hcomment hmark ih =>
    obtain ⟨m', hm', hmap⟩ := ih
    obtain ⟨front', rest, rfl, rfl, hrest⟩ := List.map_eq_append_iff.1 hmap
    obtain ⟨c, rest, rfl, rfl, hmarked⟩ := List.map_eq_cons_iff.1 hrest
    obtain ⟨m, back', rfl, rfl, rfl⟩ := List.map_eq_cons_iff.1 hmarked
    exact ⟨front' ++ m :: c :: back', .step hm' hcomment hmark, by simp⟩

/-- Hoisting a mark over a comment changes neither list when the two are looked at apart. -/
lemma filter_eq {l m : List α} (h : Hoisted kind l m) {p : α → Bool}
    (hp : ∀ c k, kind c = .lineComment → (kind k).movesUp = true → p c = true → p k = false) :
    m.filter p = l.filter p := by
  induction h with
  | refl => rfl
  | @step front back comment mark _ hcomment hmark ih =>
    rw [← ih]
    have := hp comment mark hcomment hmark
    by_cases hc : p comment = true
    · simp [hc, this hc]
    · simp [List.filter_cons, hc]

end Hoisted

end Hoisted

/-! ## Entries as they are shown -/

/-- Something that a page shows. -/
inductive Shown where
  | code (text : Text)
  | remark (text : Text)
  /-- A line comment at the end of a line. -/
  | note (text : Text)
deriving DecidableEq, Repr

namespace Shown

/-- The text shown. -/
def text : Shown → Text
  | code t => t
  | remark t => t
  | note t => t

/-- A token of some kind and text as it is shown. -/
def of (case : KeywordCase) (kind : Kind) (text : Text) : Shown :=
  match kind with
  | .lineComment => .note (written case kind text)
  | .blockComment => .remark (written case kind text)
  | _ => .code (written case kind text)

lemma text_of (case : KeywordCase) (kind : Kind) (text : Text) :
    (of case kind text).text = written case kind text := by
  unfold of
  split <;> rfl

lemma kind_of_eq_note {case : KeywordCase} {kind : Kind} {text t : Text}
    (h : of case kind text = .note t) : kind = .lineComment := by
  unfold of at h
  split at h <;> simp_all

end Shown

/-- An entry as it is shown. -/
def Entry.shown (case : KeywordCase) (e : Entry) : Shown := .of case e.kind e.text

/-- What is shown of a piece. -/
def Piece.shown? : Piece → Option Shown
  | .gap => none
  | .code t => some (.code t)
  | .remark t => some (.remark t)

namespace Line

/-- What a line shows. -/
def shown (l : Line) : List Shown :=
  l.pieces.reverse.filterMap Piece.shown? ++ l.note.toList.map .note

/-- The line shows nothing. -/
def isBare (l : Line) : Bool := l.pieces.isEmpty && l.note.isNone

/-- Pieces do not begin or end with a space, and nothing is traced where nothing is written. -/
structure Tidy (l : Line) : Prop where
  first : l.pieces.getLast? ≠ some .gap
  last : l.pieces.head? ≠ some .gap
  untraced : l.pieces = [] → l.last = none

lemma tidy_empty (indent : Nat) : (empty indent).Tidy :=
  ⟨by simp [empty], by simp [empty], fun _ => rfl⟩

/-- A piece behind the others, with or without a space in front, leaves a line tidy. -/
lemma Tidy.cons {l m : Line} (hl : l.Tidy) {p : Piece} (hp : p ≠ .gap)
    (hm : m.pieces = p :: l.pieces ∨ l.pieces ≠ [] ∧ m.pieces = p :: .gap :: l.pieces) :
    m.Tidy := by
  have hfirst := hl.first
  rcases hm with hm | ⟨hne, hm⟩
  · refine ⟨?_, by simpa [hm] using hp, by simp [hm]⟩
    rw [hm, List.getLast?_cons]
    cases hlast : l.pieces.getLast? <;> simp_all
  · refine ⟨?_, by simpa [hm] using hp, by simp [hm]⟩
    obtain ⟨q, qs, hpieces⟩ := List.exists_cons_of_ne_nil hne
    rw [hm, hpieces, List.getLast?_cons_cons, List.getLast?_cons_cons, ← hpieces]
    exact hfirst

/-- A change to an open line that adds one thing to it. -/
structure Adds (f : Line → Line) (s : Shown) : Prop where
  shown : ∀ l : Line, l.note = none → (f l).shown = l.shown ++ [s]
  indent : ∀ l : Line, (f l).indent = l.indent
  tidy : ∀ l : Line, l.Tidy → (f l).Tidy
  not_bare : ∀ l : Line, (f l).isBare = false

lemma adds_write (case : KeywordCase) (t : Token) :
    Adds (·.write case t) (.code (spelling case t)) := by
  refine ⟨fun l hl => ?_, fun _ => rfl, fun l hl => ?_, fun _ => rfl⟩
  · simp only [Line.shown, write, spaced, hl]
    split <;> simp [Piece.shown?, List.filterMap_cons]
  · refine hl.cons (p := .code (spelling case t)) (by simp) ?_
    simp only [write, spaced]
    split
    · rename_i hspace
      refine .inr ⟨fun hnil => ?_, rfl⟩
      simp [hl.untraced hnil] at hspace
    · exact .inl rfl

lemma adds_glue (t : Token) : Adds (·.glue t) (.code t.text) :=
  ⟨fun l hl => by simp [Line.shown, glue, hl, Piece.shown?], fun _ => rfl,
    fun _ hl => hl.cons (p := .code t.text) (by simp) (.inl rfl), fun _ => rfl⟩

lemma adds_attach (kind : Kind) (text : Text) : Adds (·.attach kind text) (.code text) :=
  ⟨fun l hl => by simp [Line.shown, attach, hl, Piece.shown?], fun _ => rfl,
    fun _ hl => hl.cons (p := .code text) (by simp) (.inl rfl), fun _ => rfl⟩

lemma adds_comment {c : Comment} (hc : (Entry.ofComment c).Proper) (case : KeywordCase) :
    Adds (·.comment c) ((Entry.ofComment c).shown case) := by
  have hkind : c.token.kind = .lineComment ∨ c.token.kind = .blockComment := hc
  rcases hkind with hk | hk
  · have hshown : (Entry.ofComment c).shown case = .note (Text.trimEnd c.token.text) := by
      simp [Entry.shown, Entry.ofComment, Entry.ofToken, Shown.of, hk, written]
    rw [hshown]
    have hcomment : ∀ l : Line, l.comment c = l.annotate c.token := fun l => by
      simp [comment, Comment.isLine, hk]
    refine ⟨fun l hl => ?_, fun l => ?_, fun l hl => ?_, fun l => ?_⟩ <;> rw [hcomment]
    · simp [Line.shown, annotate, hl]
    · rfl
    · exact ⟨hl.first, hl.last, hl.untraced⟩
    · simp [isBare, annotate]
  · have hshown : (Entry.ofComment c).shown case = .remark c.token.text := by
      simp [Entry.shown, Entry.ofComment, Entry.ofToken, Shown.of, hk, written]
    rw [hshown]
    have hcomment : ∀ l : Line, l.comment c = l.remark c.token := fun l => by
      simp [comment, Comment.isLine, hk]
    refine ⟨fun l hl => ?_, fun l => ?_, fun l hl => ?_, fun l => ?_⟩ <;> rw [hcomment]
    · simp only [Line.shown, remark, hl]
      rcases l.pieces with _ | ⟨p, ps⟩
      · simp [Piece.shown?]
      · cases p <;> simp [Piece.shown?, List.filterMap_cons]
    · rfl
    · refine hl.cons (p := .remark c.token.text) (by simp) ?_
      simp only [remark]
      split
      · rename_i hempty
        rw [List.isEmpty_iff.1 hempty]
        exact .inl rfl
      · rename_i hne
        exact .inr ⟨by simpa using hne, rfl⟩
    · simp [isBare, remark]

end Line

/-! ## Pages

Operations change the last line, or start another one, or put a mark behind the last code.  The last
of these is the only one that reaches back, over lines that hold nothing but comments
(`exists_of_onLastCode?`).
-/

namespace Page

/-- What a page shows. -/
def shown (p : Page) : List Shown := p.lines.reverse.flatMap Line.shown

/-- A page without lines is about to start its first one at the margin. -/
def Placed (p : Page) : Prop := p.lines = [] → p.fresh.getD p.continuation = 0

/-- A page shows some entries: all of them, hoisted at most, on tidy lines, from a first line on
that starts at the margin. -/
structure Holds (case : KeywordCase) (p : Page) (es : List Entry) : Prop where
  shown : ∃ es', Hoisted Entry.kind es es' ∧ p.shown = es'.map (Entry.shown case)
  tidy : ∀ l ∈ p.lines, l.Tidy
  flush : ∀ l ∈ p.lines.getLast?, l.indent = 0 ∧ l.isBare = false

/-- A page that holds some entries and on which writing can go on where it stands. -/
structure Stands (case : KeywordCase) (p : Page) (es : List Entry) : Prop extends
    Holds case p es where
  placed : p.Placed

variable {case : KeywordCase} {p q : Page} {es : List Entry} {e : Entry}

lemma stands_empty (case : KeywordCase) : empty.Stands case [] :=
  ⟨⟨⟨[], .refl _, rfl⟩, by simp [empty], by simp [empty]⟩, fun _ => rfl⟩

/-- Only the lines of a page tell what it holds. -/
lemma Holds.of_lines (hp : p.Holds case es) (h : q.lines = p.lines) : q.Holds case es := by
  refine ⟨?_, by rw [h]; exact hp.tidy, by rw [h]; exact hp.flush⟩
  have hshown := hp.shown
  rwa [Page.shown, ← h] at hshown

lemma Holds.breakAt (hp : p.Holds case es) (i : Nat) : (p.breakAt i).Holds case es :=
  hp.of_lines rfl

lemma Holds.continueAt (hp : p.Holds case es) (i : Nat) : (p.continueAt i).Holds case es :=
  hp.of_lines rfl

/-- A page that holds something has lines. -/
lemma Holds.lines_ne_nil (hp : p.Holds case es) (h : es ≠ []) : p.lines ≠ [] := by
  intro hlines
  obtain ⟨es', hhoisted, hshown⟩ := hp.shown
  rw [Page.shown, hlines] at hshown
  have hnil : es' = [] := by simpa using hshown.symm
  subst hnil
  generalize hl : ([] : List Entry) = l at hhoisted
  cases hhoisted with
  | refl => exact h hl.symm
  | step => simp at hl

/-- Where a page holds something, it does not matter for the margin where it stands. -/
lemma Holds.stands (hp : p.Holds case es) (h : es ≠ []) : p.Stands case es :=
  ⟨hp, fun hlines => absurd hlines (hp.lines_ne_nil h)⟩

lemma Holds.stands_append (hp : p.Holds case (es ++ [e])) : p.Stands case (es ++ [e]) :=
  hp.stands (by simp)

/-- The first line is started at the margin. -/
lemma Holds.stands_breakAt (hp : p.Holds case es) {i : Nat} (hi : es = [] → i = 0) :
    (p.breakAt i).Stands case es := by
  refine ⟨hp.breakAt i, fun hlines => ?_⟩
  by_contra hne
  exact hp.lines_ne_nil (fun hes => hne (hi hes)) hlines

/-- Adding to the last line, which is open.  What the page shows is longer by one piece at its end;
the other lines and their order are as they were. -/
lemma Holds.onLast (hp : p.Holds case es) {l : Line} {ls : List Line} (hl : p.lines = l :: ls)
    (hopen : l.note = none) {f : Line → Line} (hf : Line.Adds f (e.shown case)) :
    (p.onLast f).Holds case (es ++ [e]) := by
  have hlines : (p.onLast f).lines = f l :: ls := by simp [Page.onLast, hl]
  obtain ⟨es', hhoisted, hshown⟩ := hp.shown
  refine ⟨⟨es' ++ [e], hhoisted.append_right [e], ?_⟩, ?_, ?_⟩
  · rw [Page.shown, hl] at hshown
    rw [Page.shown, hlines]
    simp only [List.reverse_cons, List.flatMap_append, List.flatMap_cons, List.flatMap_nil,
      List.append_nil, List.map_append] at hshown ⊢
    rw [hf.shown l hopen, ← hshown]
    simp
  · rw [hlines]
    intro m hm
    rcases List.mem_cons.1 hm with rfl | hm
    · exact hf.tidy l (hp.tidy l (by simp [hl]))
    · exact hp.tidy m (by simp [hl, hm])
  · rw [hlines]
    have hflush := hp.flush
    rw [hl] at hflush
    cases ls with
    | nil =>
      intro m hm
      obtain rfl : f l = m := by simpa using hm
      exact ⟨(hf.indent l).trans (hflush l (by simp)).1, hf.not_bare l⟩
    | cons m ms =>
      rw [List.getLast?_cons_cons] at hflush ⊢
      exact hflush

/-- Adding to a line that was started for it.  Only the first line of a page may not be indented,
and this one is the first only if there is none yet. -/
lemma Holds.startLine_onLast (hp : p.Holds case es) {i : Nat} (hi : p.lines = [] → i = 0)
    {f : Line → Line} (hf : Line.Adds f (e.shown case)) :
    ((p.startLine i).onLast f).Holds case (es ++ [e]) := by
  have hlines : ((p.startLine i).onLast f).lines = f (.empty i) :: p.lines := rfl
  obtain ⟨es', hhoisted, hshown⟩ := hp.shown
  refine ⟨⟨es' ++ [e], hhoisted.append_right [e], ?_⟩, ?_, ?_⟩
  · rw [Page.shown] at hshown
    rw [Page.shown, hlines]
    simp only [List.reverse_cons, List.flatMap_append, List.flatMap_cons, List.flatMap_nil,
      List.append_nil, List.map_append, hshown, hf.shown (.empty i) rfl]
    simp [Line.shown, Line.empty]
  · rw [hlines]
    intro m hm
    rcases List.mem_cons.1 hm with rfl | hm
    · exact hf.tidy _ (Line.tidy_empty i)
    · exact hp.tidy m hm
  · rw [hlines]
    have hflush := hp.flush
    rcases hls : p.lines with _ | ⟨m, ms⟩
    · intro l hl
      obtain rfl : f (.empty i) = l := by simpa using hl
      exact ⟨(hf.indent _).trans (hi hls), hf.not_bare _⟩
    · rw [hls] at hflush
      rw [List.getLast?_cons_cons]
      exact hflush

/-- A page is made ready by starting a line or by leaving it as it is. -/
lemma ready_cases (p : Page) :
    (∃ i, p.ready = p.startLine i ∧ (p.lines = [] → i = p.fresh.getD p.continuation)) ∨
      p.ready = p ∧ ∃ l ls, p.lines = l :: ls ∧ l.note = none := by
  unfold ready
  split
  · rename_i i hfresh
    exact .inl ⟨i, rfl, fun _ => by simp [hfresh]⟩
  · rename_i hfresh hlines
    exact .inl ⟨p.continuation, rfl, fun _ => by simp [hfresh]⟩
  · rename_i l ls hfresh hlines
    split
    · exact .inl ⟨p.continuation, rfl, fun h => by simp [hlines] at h⟩
    · rename_i hclosed
      simp only [Line.isClosed, Bool.or_eq_true, not_or] at hclosed
      exact .inr ⟨rfl, l, ls, hlines, by simpa using hclosed.1⟩

/-- Adding one thing where the page stands. -/
lemma Stands.ready_onLast (hp : p.Stands case es) {f : Line → Line}
    (hf : Line.Adds f (e.shown case)) : (p.ready.onLast f).Stands case (es ++ [e]) := by
  refine Holds.stands_append ?_
  rcases p.ready_cases with ⟨i, hready, hi⟩ | ⟨hready, l, ls, hl, hopen⟩
  · rw [hready]
    exact hp.startLine_onLast (fun h => (hi h).trans (hp.placed h)) hf
  · rw [hready]
    exact hp.onLast hl hopen hf

/-- A token is shown by its spelling, whatever its role, unless it is a comment. -/
lemma shown_ofToken {t : Token} (h : t.isComment = false) (role : Role) (case : KeywordCase) :
    (Entry.ofToken role t).shown case = .code (Line.spelling case t) := by
  simp only [Token.isComment, Bool.or_eq_false_iff, beq_eq_false_iff_ne] at h
  cases hk : t.kind <;>
    simp_all [Entry.shown, Entry.ofToken, Shown.of, written, Line.spelling]

lemma Stands.write (hp : p.Stands case es) {t : Token} (ht : t.isComment = false) (role : Role) :
    (p.write case t).Stands case (es ++ [.ofToken role t]) :=
  hp.ready_onLast (shown_ofToken ht role case ▸ Line.adds_write case t)

lemma Stands.glue (hp : p.Stands case es) {t : Token}
    (ht : t.kind = .openParen ∨ t.kind = .closeParen) (role : Role) :
    (p.glue t).Stands case (es ++ [.ofToken role t]) := by
  have hshown : (Entry.ofToken role t).shown case = .code t.text := by
    rcases ht with hk | hk <;> simp [Entry.shown, Entry.ofToken, Shown.of, hk, written]
  exact hp.ready_onLast (hshown ▸ Line.adds_glue t)

/-- A comment is added; without a line of its own it stands where the page stands. -/
lemma Stands.comment (hp : p.Stands case es) {c : Comment} (hc : (Entry.ofComment c).Proper) :
    (p.comment c).Stands case (es ++ [.ofComment c]) := by
  unfold Page.comment
  split
  · exact (hp.startLine_onLast hp.placed (Line.adds_comment hc case)).stands_append
  · exact hp.ready_onLast (Line.adds_comment hc case)

/-- The last line with code and the lines of comments behind it. -/
lemma exists_of_onLastCode? {f : Line → Line} {lines changed : List Line}
    (h : onLastCode? f lines = some changed) :
    ∃ behind l rest, lines = behind ++ l :: rest ∧ changed = behind ++ f l :: rest ∧
      ∀ b ∈ behind, b.pieces = [] := by
  induction lines generalizing changed with
  | nil => simp [onLastCode?] at h
  | cons l ls ih =>
    simp only [onLastCode?] at h
    split at h
    · rename_i hempty
      obtain ⟨changed', hc, rfl⟩ := Option.map_eq_some_iff.1 h
      obtain ⟨behind, m, rest, rfl, rfl, hbare⟩ := ih hc
      refine ⟨l :: behind, m, rest, rfl, rfl, fun b hb => ?_⟩
      rcases List.mem_cons.1 hb with rfl | hb
      · exact List.isEmpty_iff.1 hempty
      · exact hbare b hb
    · obtain rfl := Option.some.inj h
      exact ⟨[], l, ls, rfl, rfl, by simp⟩

/-- Lines without pieces show line comments at most. -/
lemma shown_of_bare {lines : List Line} (h : ∀ l ∈ lines, l.pieces = []) :
    ∀ s ∈ lines.flatMap Line.shown, ∃ t, s = .note t := by
  intro s hs
  obtain ⟨l, hl, hs⟩ := List.mem_flatMap.1 hs
  simp only [Line.shown, h l hl, List.reverse_nil, List.filterMap_nil, List.nil_append,
    List.mem_map] at hs
  obtain ⟨t, -, rfl⟩ := hs
  exact ⟨t, rfl⟩

/-- A mark put behind the last code is added, hoisted over the line comments behind that code.  What
the page shows splits at that code; all that is shown behind it are line comments, so the mark may
pass them. -/
lemma Stands.attach (hp : p.Stands case es) (role : Role) {kind : Kind}
    (hkind : kind.movesUp = true) (text : Text) :
    (p.attach kind text).Stands case (es ++ [⟨role, kind, text⟩]) := by
  have hshown : (⟨role, kind, text⟩ : Entry).shown case = .code text := by
    cases kind <;> simp_all [Kind.movesUp, Entry.shown, Shown.of, written]
  have hadds := hshown ▸ Line.adds_attach kind text
  unfold Page.attach
  split
  · rename_i changed hchanged
    obtain ⟨behind, l, rest, hlines, rfl, hbare⟩ := exists_of_onLastCode? hchanged
    obtain ⟨es', hhoisted, hpshown⟩ := hp.shown
    refine Holds.stands_append ⟨?_, ?_, ?_⟩
    · -- what is shown splits into what stands in front of the mark and line comments behind it
      have hold : p.shown = (rest.reverse.flatMap Line.shown ++
          l.pieces.reverse.filterMap Piece.shown?) ++
          (l.note.toList.map .note ++ behind.reverse.flatMap Line.shown) := by
        simp [Page.shown, hlines, Line.shown]
      obtain ⟨front, notes, rfl, hfront, hnotes⟩ :=
        List.map_eq_append_iff.1 (hpshown.symm.trans hold)
      have hall : ∀ c ∈ notes, c.kind = .lineComment := by
        intro c hc
        have hmem : c.shown case ∈ notes.map (Entry.shown case) := List.mem_map_of_mem hc
        rw [hnotes, List.mem_append, List.mem_map] at hmem
        rcases hmem with ⟨t, -, ht⟩ | hmem
        · exact Shown.kind_of_eq_note ht.symm
        · obtain ⟨t, ht⟩ := shown_of_bare
            (fun b hb => hbare b (List.mem_reverse.1 hb)) _ hmem
          exact Shown.kind_of_eq_note ht
      refine ⟨front ++ ⟨role, kind, text⟩ :: notes, ?_, ?_⟩
      · have hbehind : Hoisted Entry.kind (es ++ [⟨role, kind, text⟩])
            (front ++ (notes ++ ⟨role, kind, text⟩ :: [])) := by
          simpa using hhoisted.append_right [⟨role, kind, text⟩]
        have hpast := hbehind.past hall hkind
        simpa using hpast
      · rw [List.map_append, List.map_cons, hfront, hnotes, hshown]
        simp [Page.shown, Line.shown, Line.attach, Piece.shown?]
    · intro m hm
      simp only [List.mem_append, List.mem_cons] at hm
      have htidy := hp.tidy
      simp only [hlines, List.mem_append, List.mem_cons] at htidy
      rcases hm with hm | rfl | hm
      · exact htidy m (.inl hm)
      · exact hadds.tidy l (htidy l (.inr (.inl rfl)))
      · exact htidy m (.inr (.inr hm))
    · have hflush := hp.flush
      rw [hlines] at hflush
      cases rest with
      | nil =>
        intro m hm
        obtain rfl : l.attach kind text = m := by simpa using hm
        exact ⟨(hadds.indent l).trans (hflush l (by simp)).1, hadds.not_bare l⟩
      | cons m ms => simpa [List.getLast?_append] using hflush
  · exact hp.ready_onLast hadds

/-- A comma, a closing parenthesis or a semicolon is added. -/
lemma Stands.punctuate (hp : p.Stands case es) (role : Role) {t : Token}
    (ht : t.kind.movesUp = true) :
    (p.punctuate case t).Stands case (es ++ [.ofToken role t]) := by
  unfold Page.punctuate
  split
  · exact hp.attach role ht t.text
  · refine hp.write ?_ role
    cases hk : t.kind <;> simp_all [Kind.movesUp, Token.isComment]

/-- An empty line adds nothing to a page that has lines. -/
lemma Holds.separate (hp : p.Holds case es) (hne : es ≠ []) : p.separate.Holds case es := by
  have h := hp.lines_ne_nil hne
  obtain ⟨es', hhoisted, hshown⟩ := hp.shown
  refine ⟨⟨es', hhoisted, ?_⟩, ?_, ?_⟩
  · rw [← hshown]
    simp [Page.shown, Page.separate, startLine, Line.shown, Line.empty]
  · intro l hl
    simp only [Page.separate, startLine, List.mem_cons] at hl
    rcases hl with rfl | hl
    · exact Line.tidy_empty 0
    · exact hp.tidy l hl
  · have hflush := hp.flush
    obtain ⟨m, ms, hm⟩ := List.exists_cons_of_ne_nil h
    rw [hm] at hflush
    simp only [Page.separate, startLine, hm, List.getLast?_cons_cons]
    exact hflush

end Page

end SqlInlay.Sql
