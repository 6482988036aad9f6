import SqlInlay.Proofs.Host.Meetings
import SqlInlay.Proofs.Reformat

/-!
# What candidates look like

Decoding, encoding and editing all slice the source by the offsets that `locate` hands out.  Those
offsets come from cursors that scan the same text again and again, each with an end of its own.
Here is what they agree on, stated without cursors: by the source, by spans, and by the texts that
spans cover.

**Order.**  `readMark` goes on behind all that it has reported, so the spans of candidates come in
order and share nothing (`readMark_spanned`, `locateFrom_inOrder`).  A candidate without a literal
has a span, too: that of the expression or the annotation that it reports on.

**Literals.**  `Literal.WellFormed` describes a literal by its source alone.

* `Fragment.WellFormed` — a fragment is letters, quotes, a content and the same quotes again, one
  behind the other, and its span and that of its content are where these stand.
* `Filler` — white space and the comments of the host language, told apart by the grammar of
  comments (`BlockRest`) and not by what the scan passes; `filler_take_trivia` leads from the one to
  the other.
* `Connects` — what stands between two fragments: filler, and a plus sign in it exactly where the
  fragments are said to be concatenated.
-/

namespace SqlInlay

open SqlInlay.Text

namespace Host

/-! ## White space and comments -/

/-- What opens a comment that goes on to the end of its line. -/
def lineCommentOpener : Language → Text
  | .python => "#"
  | .java | .kotlin => "//"

/-- The rest of a block comment of which `depth` are open, through its last end.  The grammar counts
as the scan does, but says of a whole text that it is such a rest, and of no other. -/
inductive BlockRest (nested : Bool) : Nat → Text → Prop
  | close : BlockRest nested 1 "*/"
  | leave {depth : Nat} {s : Text} (h : BlockRest nested (depth + 1) s) :
      BlockRest nested (depth + 2) ('*' :: '/' :: s)
  | enter {depth : Nat} {s : Text} (hnested : nested = true) (h : BlockRest nested (depth + 2) s) :
      BlockRest nested (depth + 1) ('/' :: '*' :: s)
  | char {depth : Nat} {c d : Char} {s : Text} (henter : ¬(c = '/' ∧ d = '*' ∧ nested = true))
      (hleave : ¬(c = '*' ∧ d = '/')) (h : BlockRest nested (depth + 1) (d :: s)) :
      BlockRest nested (depth + 1) (c :: d :: s)

/-- White space, comments, and in Python lines that are continued.  This is what may stand between
two fragments, the sign that joins them aside. -/
inductive Filler (language : Language) : Text → Prop
  | nil : Filler language []
  | blank {c : Char} {s : Text} (hc : isBlank c = true) (h : Filler language s) :
      Filler language (c :: s)
  | continued {eol s : Text} (hlanguage : language = .python)
      (heol : eol = ['\n'] ∨ eol = ['\r', '\n']) (h : Filler language s) :
      Filler language ('\\' :: (eol ++ s))
  | line {body s : Text} (hbody : '\n' ∉ body) (h : Filler language ('\n' :: s)) :
      Filler language (lineCommentOpener language ++ (body ++ '\n' :: s))
  | block {body s : Text} (hlanguage : language ≠ .python)
      (hbody : BlockRest (language == .kotlin) 1 body) (h : Filler language s) :
      Filler language ("/*".toList ++ (body ++ s))

/-- A line that is followed by another ends in front of a line feed. -/
lemma lineLength_spec {t : Text} (h : t.drop (lineLength t) ≠ []) :
    '\n' ∉ t.take (lineLength t) ∧ ∃ s, t.drop (lineLength t) = '\n' :: s := by
  have hsplit : t.take (lineLength t) = t.takeWhile (· ≠ '\n') ∧
      t.drop (lineLength t) = t.dropWhile (· ≠ '\n') := by
    have happend := List.takeWhile_append_dropWhile (p := (· ≠ '\n')) (l := t)
    unfold lineLength
    constructor
    · nth_rewrite 2 [← happend]
      exact List.take_left
    · nth_rewrite 2 [← happend]
      exact List.drop_left
  rw [hsplit.2] at h
  refine ⟨fun hmem => ?_, ?_⟩
  · rw [hsplit.1] at hmem
    simpa using List.mem_takeWhile_imp hmem
  · rw [hsplit.2]
    obtain ⟨c, s, hs⟩ := List.exists_cons_of_ne_nil h
    have hc := List.head?_dropWhile_not (p := (· ≠ '\n')) (l := t)
    rw [hs] at hc ⊢
    exact ⟨s, by simpa using hc⟩

/-- A block comment with something behind it has come to its end.  One that does not close is as
long as the text, so what is left behind it shows that the last `*/` was found. -/
lemma blockRest_take {nested : Bool} {depth : Nat} {t : Text}
    (h : t.drop (blockLength nested (depth + 1) t) ≠ []) :
    BlockRest nested (depth + 1) (t.take (blockLength nested (depth + 1) t)) := by
  generalize hdepth : depth + 1 = n at *
  fun_induction blockLength nested n t generalizing depth with
  | case1 => exact absurd rfl h
  | case2 => exact absurd rfl h
  | case3 n c d t henter ih =>
    subst hdepth
    obtain ⟨rfl, rfl, hnested⟩ := henter
    rw [Nat.add_comm 2] at h ⊢
    exact .enter (hnested.resolve_left (by omega)) (ih rfl h)
  | case4 n c d t henter hleave hone =>
    obtain ⟨rfl, rfl⟩ := hleave
    obtain rfl : n = 1 := by omega
    exact .close
  | case5 n c d t henter hleave hone ih =>
    obtain ⟨rfl, rfl⟩ := hleave
    obtain ⟨m, rfl⟩ : ∃ m, n = m + 2 := ⟨n - 2, by omega⟩
    rw [Nat.add_comm 2 (blockLength _ _ t)] at h ⊢
    exact .leave (ih rfl h)
  | case6 n c d t henter hleave ih =>
    subst hdepth
    obtain ⟨m, hm⟩ := Nat.exists_eq_succ_of_ne_zero
      (blockLength_pos nested (depth + 1) (List.cons_ne_nil d t)).ne'
    rw [Nat.add_comm 1, hm] at h ⊢
    rw [hm] at ih
    exact .char (fun hc => henter ⟨hc.1, hc.2.1, .inr hc.2.2⟩) hleave (ih rfl h)

/-- A comment that is passed over, in front of filler that goes up to something else.  In Python it
is a line comment, elsewhere a line comment or a block one; a line comment ends with a line feed,
which the filler behind it starts with. -/
lemma filler_comment {language : Language} {c : Char} {t : Text} {k : Nat}
    (hcomment : commentTail? language c t = some k) (hbehind : t.drop k ≠ [])
    (h : Filler language ((t.drop k).take (trivia language (t.drop k)).1)) :
    Filler language (c :: (t.take k ++ (t.drop k).take (trivia language (t.drop k)).1)) := by
  have hline : ∀ u : Text, u.drop (lineLength u) ≠ [] →
      Filler language ((u.drop (lineLength u)).take (trivia language (u.drop (lineLength u))).1) →
      Filler language (lineCommentOpener language ++ (u.take (lineLength u) ++
        (u.drop (lineLength u)).take (trivia language (u.drop (lineLength u))).1)) := by
    intro u hu hrest
    obtain ⟨hbody, s, hs⟩ := lineLength_spec hu
    have hfeed : (trivia language ('\n' :: s)).1 = (trivia language s).1 + 1 := by
      rw [trivia, if_pos (by decide)]
    rw [hs, hfeed, List.take_succ_cons] at hrest ⊢
    exact .line hbody hrest
  by_cases hlanguage : language = .python
  · subst hlanguage
    simp only [commentTail?] at hcomment
    split at hcomment
    · rename_i hc
      obtain rfl := Option.some.inj hcomment
      rw [hc]
      exact hline t hbehind h
    · cases hcomment
  · obtain ⟨rfl, ⟨u, rfl, rfl⟩ | ⟨u, rfl, rfl⟩⟩ := commentTail?_slash hlanguage hcomment
    · have hlength : lineLength ('/' :: u) = lineLength u + 1 := by simp [lineLength]
      rw [hlength, List.drop_succ_cons] at hbehind h ⊢
      have hopener : lineCommentOpener language = ['/', '/'] := by
        cases language <;> first | rfl | exact absurd rfl hlanguage
      have hline := hline u hbehind h
      rwa [hopener] at hline
    · have hlength : blockLength (language == .kotlin) 0 ('/' :: '*' :: u) - 1 =
          blockLength (language == .kotlin) 1 u + 1 := by
        rw [blockLength, if_pos (by simp), Nat.zero_add]
        omega
      rw [hlength, List.drop_succ_cons] at hbehind h ⊢
      exact .block hlanguage (blockRest_take hbehind) h

/-- White space and comments that are passed over are filler, if something stands behind them.  At
the end of a text this is not so: a comment that never closes is passed over as well. -/
lemma filler_take_trivia {language : Language} {t : Text}
    (h : t.drop (trivia language t).1 ≠ []) :
    Filler language (t.take (trivia language t).1) := by
  induction hn : t.length using Nat.strongRecOn generalizing t with
  | ind n ih =>
    subst hn
    match t with
    | [] => exact absurd List.drop_nil h
    | c :: t =>
      rw [trivia] at h ⊢
      split_ifs at h ⊢ with hblank hcontinued
      · exact .blank hblank (ih t.length (by simp) h rfl)
      · split at h
        · exact .nil
        · rename_i k hbreak
          obtain ⟨rfl, hlanguage⟩ := hcontinued
          obtain ⟨eol, u, rfl, rfl, heol⟩ := exists_of_lineBreakLength? hbreak
          simp only [List.drop_left] at h ⊢
          rw [List.drop_succ_cons, Nat.add_comm, ← List.drop_drop, List.drop_left] at h
          rw [List.take_succ_cons, Nat.add_comm, List.take_length_add_append]
          refine .continued hlanguage heol (ih u.length ?_ h rfl)
          simp only [List.length_cons, List.length_append]
          omega
      · split at h
        · exact .nil
        · rename_i k hcomment
          simp only at h ⊢
          rw [List.drop_succ_cons, Nat.add_comm, ← List.drop_drop] at h
          have hrest := ih (t.drop k).length
            (by simp only [List.length_cons, List.length_drop]; omega) h rfl
          rw [List.take_succ_cons, Nat.add_comm, List.take_add]
          exact filler_comment hcomment (fun hnil => h (by rw [hnil, List.drop_nil])) hrest

/-! ## Between fragments -/

/-- What stands between two fragments that are joined: filler, and in it a plus sign if they are
concatenated. -/
inductive Connects (language : Language) : Joiner → Text → Prop
  | plus {s t : Text} (hs : Filler language s) (ht : Filler language t) :
      Connects language .concatenation (s ++ '+' :: t)
  | side {joiner : Joiner} {s : Text} (hlanguage : language = .python)
      (hjoiner : joiner ≠ .concatenation) (hs : Filler language s) : Connects language joiner s

/-- A place behind white space and comments is behind filler, if there is something. -/
lemma exists_filler {language : Language} {c : Cursor} (h : (c.skipTrivia language).rest ≠ []) :
    ∃ s, Filler language s ∧ c.rest = s ++ (c.skipTrivia language).rest :=
  ⟨_, filler_take_trivia h, (List.take_append_drop _ _).symm⟩

/-- The source between a fragment and the next one, where one was found.  It is filler around a plus
sign or, in Python, filler alone, and the backslash of a continued line is part of the filler. -/
lemma connects_of_joinerAt {language : Language} {continued : Bool} {c following : Cursor}
    {joiner : Joiner}
    (h : joinerAt language continued (c.skipTrivia language) = some (joiner, following))
    (hne : following.rest ≠ []) :
    ∃ s, c.rest = s ++ following.rest ∧ Connects language joiner s := by
  unfold joinerAt at h
  split at h
  · rename_i hplus
    obtain ⟨rfl, rfl⟩ : Joiner.concatenation = joiner ∧ _ = following := by simpa using h
    obtain ⟨u, hu⟩ := List.head?_eq_some_iff.1 hplus
    obtain ⟨s, hs, hrest⟩ := exists_filler (c := c) (by rw [hu]; exact List.cons_ne_nil _ _)
    obtain ⟨t, ht, hbehind⟩ := exists_filler hne
    have hnext : ((c.skipTrivia language).advance 1).rest = u := by simp [Cursor.advance, hu]
    rw [hnext] at hbehind
    refine ⟨s ++ '+' :: t, ?_, .plus hs ht⟩
    rw [hrest, hu, hbehind, List.append_assoc, List.cons_append]
  · split at h
    · rename_i hpython
      obtain ⟨hjoiner, rfl⟩ : (if continued = true then Joiner.lineContinuation
          else .juxtaposition) = joiner ∧ _ = following := by simpa using h
      obtain ⟨s, hs, hrest⟩ := exists_filler hne
      refine ⟨s, hrest, .side hpython.1 ?_ hs⟩
      rw [← hjoiner]
      split <;> simp
    · cases h

/-! ## Fragments -/

/-- A fragment is a string of its source: letters that leave it plain text, quotes, its content, and
the same quotes again. -/
structure Fragment.WellFormed (buffer : Nat) (language : Language) (source : Text) (f : Fragment) :
    Prop where
  buffer : f.span.buffer = buffer ∧ f.content.buffer = buffer
  cuts : f.span.Cuts source ∧ f.content.Cuts source
  source : f.span.of source = f.marker ++ f.delimiter ++ f.content.of source ++ f.delimiter
  start : f.content.start = f.span.start + bytes (f.marker ++ f.delimiter)
  stop : f.span.stop = f.content.stop + bytes f.delimiter
  quotes : Quotes language f.marker f.delimiter
  plain : ∀ c ∈ f.marker, c ∉ "fFbB".toList

/-- A literal is a row of strings of its source, with connections between them.  The span goes from
the start of the first to the end of the last, and so is known from the fragments. -/
structure Literal.WellFormed (buffer : Nat) (language : Language) (source : Text) (l : Literal) :
    Prop where
  ne_nil : l.fragments ≠ []
  fragments : ∀ f ∈ l.fragments, f.WellFormed buffer language source
  ordered : l.fragments.Pairwise fun f g => f.span.stop ≤ g.span.start
  buffer : l.span.buffer = buffer
  start : l.fragments.head?.map (·.span.start) = some l.span.start
  stop : l.fragments.getLast?.map (·.span.stop) = some l.span.stop
  last : l.fragments.getLast?.map (·.joiner) = some none
  joined : List.Forall₂ (fun f s => ∃ joiner, f.joiner = some joiner ∧ Connects language joiner s)
    l.fragments.dropLast (separators source l.fragments)

/-- The string at a place is a fragment of the text. -/
lemma wellFormed_fragmentAt {buffer : Nat} {language : Language} {c : Cursor} {q : Quoted}
    (hq : quoted? language c.before c.rest = some (some q)) (hplain : refusal? q = none)
    (joiner : Option Joiner) :
    Fragment.WellFormed buffer language c.text
      { fragmentAt buffer language c q with joiner := joiner } := by
  obtain ⟨rest, hrest⟩ := prefix_of_quoted? hq
  have htext : c.text = c.passed.reverse ++ (q.source ++ rest) := by rw [Cursor.text, hrest]
  have hcontent := (@shows_fragmentAt buffer language c q rest hrest.symm joiner).content
  have hstart : c.offset = bytes c.passed.reverse := (bytes_reverse _).symm
  refine ⟨⟨rfl, rfl⟩, ⟨⟨c.passed.reverse, q.source, rest, htext, hstart, rfl⟩,
    ⟨c.passed.reverse ++ q.marker ++ q.delimiter, q.content, q.delimiter ++ rest, ?_, ?_, rfl⟩⟩,
    ?_, ?_, ?_, ?_, ?_⟩
  · simp [htext, Quoted.source]
  · simp [fragmentAt, hstart, Nat.add_assoc]
  · rw [hcontent, htext]
    exact slice_bytes hstart (congrArg (· + _) hstart)
  · simp [fragmentAt, Nat.add_assoc]
  · simp [fragmentAt, Quoted.source, Nat.add_assoc]
  · exact quotes_of_quoted? hq hplain
  · intro c hc
    have hletter := (quotes_of_quoted? hq hplain).letters c hc
    have hall : "rRuU".toList.all (fun c => !"fFbB".toList.contains c) = true := by decide
    simpa using List.all_eq_true.1 hall c hletter

/-- Fragments are read where something is left. -/
lemma FragmentsAt.rest_ne_nil {buffer : Nat} {language : Language} {c d : Cursor}
    {fragments : List Fragment} (h : FragmentsAt buffer language c fragments d) : c.rest ≠ [] := by
  have hstring : ∃ q, quoted? language c.before c.rest = some (some q) := by
    cases h with
    | last hq => exact ⟨_, hq⟩
    | cons hq => exact ⟨_, hq⟩
  obtain ⟨q, hq⟩ := hstring
  intro hnil
  have hprefix := (prefix_of_quoted? hq).length_le
  have hpos := length_source_pos hq
  rw [hnil, List.length_nil] at hprefix
  omega

/-- Strings behind one another are fragments in order, with connections between them.  The induction
is along the strings, and each one is placed in the text by how far the cursor has come. -/
lemma FragmentsAt.wellFormed {buffer : Nat} {language : Language} {c d : Cursor}
    {fragments : List Fragment} (h : FragmentsAt buffer language c fragments d) :
    (∀ f ∈ fragments, f.WellFormed buffer language c.text ∧ c.offset ≤ f.span.start) ∧
      fragments.Pairwise (fun f g => f.span.stop ≤ g.span.start) ∧
      fragments.getLast?.map (·.joiner) = some none ∧
      List.Forall₂ (fun f s => ∃ joiner, f.joiner = some joiner ∧ Connects language joiner s)
        fragments.dropLast (separators c.text fragments) := by
  induction h with
  | last hq hplain =>
    refine ⟨fun f hf => ?_, List.pairwise_singleton .., rfl, .nil⟩
    obtain rfl := List.mem_singleton.1 hf
    exact ⟨wellFormed_fragmentAt hq hplain none, Nat.le_refl _⟩
  | @cons c following stop q continued joiner fragments hq hplain hjoiner h ih =>
    obtain ⟨hall, hordered, hlast, hjoined⟩ := ih
    have hbehind := offset_behind buffer hq
    have hreach := ((c.advance q.source.length).reaches_skipTrivia language).trans
      (joinerAt_reaches hjoiner)
    have hfollowing := (c.reaches_advance q.source.length).trans hreach
    have hle := hreach.offset_le
    rw [hfollowing.text_eq] at hall hjoined
    refine ⟨List.forall_mem_cons.2 ⟨⟨wellFormed_fragmentAt hq hplain _, Nat.le_refl _⟩,
      fun f hf => ⟨(hall f hf).1, hfollowing.offset_le.trans (hall f hf).2⟩⟩,
      List.pairwise_cons.2 ⟨fun f hf => ?_, hordered⟩, ?_, ?_⟩
    · have := (hall f hf).2
      simp only
      omega
    · cases h with
      | last => exact hlast
      | cons => exact hlast
    · obtain ⟨s, hs, -, hseparators⟩ := h.exists_separator hq hjoiner
      obtain ⟨s', hs', hconnects⟩ := connects_of_joinerAt hjoiner h.rest_ne_nil
      obtain rfl := List.append_cancel_right (hs.symm.trans hs')
      rw [hseparators]
      cases h with
      | last => exact .cons ⟨joiner, rfl, hconnects⟩ hjoined
      | cons => exact .cons ⟨joiner, rfl, hconnects⟩ hjoined

/-! ## Spans of candidates -/

/-- What a candidate reports on. -/
def Candidate.span : Candidate → Span
  | .literal l => l.span
  | .skipped span _ => span

/-- A span runs from one place to another, both behind `c`, and `d` is a place behind both; what
comes from `d` on starts behind the span and later than it. -/
def Spanned (buffer : Nat) (c d : Cursor) (s : Span) : Prop :=
  ∃ first last, c.Reaches first ∧ first.Reaches last ∧ last.Reaches d ∧ first.offset < d.offset ∧
    s = ⟨buffer, first.offset, last.offset⟩

lemma Spanned.of_reaches {buffer : Nat} {b c d : Cursor} {s : Span} (h : Spanned buffer c d s)
    (hb : b.Reaches c) : Spanned buffer b d s := by
  obtain ⟨first, last, hfirst, hlast⟩ := h
  exact ⟨first, last, hb.trans hfirst, hlast⟩

/-- An argument stands in front of the place behind its list.  It ends where the blanks in front of
a comma or a parenthesis start, so the place behind that sign lies further on. -/
lemma spanned_of_argumentsFrom (buffer : Nat) {language : Language} {depth : Nat}
    {start stop : Cursor} {arguments : List Argument}
    (h : argumentsFrom language depth start start = some (arguments, stop)) {a : Argument}
    (ha : a ∈ arguments) : Spanned buffer start stop ⟨buffer, a.value.offset, a.stop⟩ := by
  obtain ⟨s, d, hbetween, hs, -, hsd, hend, hnext⟩ :=
    (argumentsFrom_meets (.refl start) h).2 a ha
  have hvalue := ((reaches_of_argumentsFrom (.refl start) h).2 a ha).1
  obtain ⟨hinside, hat⟩ : (s.skipTrivia language).offset < d.offset ∧
      ArgumentAt language (s.skipTrivia language) d a := by
    rcases argumentBetween_cases hsd hend with ⟨hnone, -⟩ | ⟨b, hb, hat⟩
    · cases hnone.symm.trans hbetween
    · obtain rfl := Option.some.inj (hb.symm.trans hbetween)
      exact hat
  have hskip := s.reaches_skipTrivia language
  have hd := hs.1.trans hsd.1
  have hle := hat.stop_le (hskip.of_offset_le hsd.1 hinside.le)
  obtain ⟨source, blanks, hrest, hstop, -⟩ := hat.blanks
  -- the argument ends at a place, for blanks were taken off it as characters
  obtain ⟨last, hlast, hoffset⟩ : ∃ last, start.Reaches last ∧ last.offset = a.stop :=
    ⟨_, (hs.1.trans hskip).trans (Cursor.reaches_advance _ source.length),
      (Cursor.advance_append hrest).2.trans hstop.symm⟩
  have hend : d.offset < (d.advance 1).offset := by
    obtain ⟨x, u, hrest, -⟩ := hend
    have := x.utf8Size_pos
    rw [Cursor.offset_advance, hrest]
    simp only [List.take_succ_cons, List.take_zero, bytes_cons, bytes_nil]
    omega
  have hstop := (d.reaches_advance 1).trans hnext.1
  have hbehind := hnext.1.offset_le
  have hvalueLe := hat.le
  exact ⟨a.value, last, hvalue, hvalue.of_offset_le hlast (hoffset ▸ hvalueLe),
    (hlast.of_offset_le hd (hoffset ▸ hle)).trans hstop, by omega, by rw [hoffset]⟩

/-- What is reported on stands behind the sign and in front of the place to read on from.  It is the
name where no arguments are read, the query argument where that is no expression of strings, and the
expression where it is one. -/
lemma readMark_spanned (buffer : Nat) (language : Language) (marks : Annotations) (name : Text)
    {sign head : Cursor} (hhead : sign.Reaches head) (hlt : sign.offset < head.offset) :
    Spanned buffer sign (readMark buffer language marks name sign head).2
      (readMark buffer language marks name sign head).1.span := by
  have hname : Spanned buffer sign head ⟨buffer, sign.offset, head.offset⟩ :=
    ⟨sign, head, .refl sign, hhead, .refl head, hlt, rfl⟩
  have hopening := hhead.trans (head.reaches_skipTrivia language)
  obtain ⟨hread, hliteral⟩ := standsAt_of_readMark buffer language marks name sign head
  unfold readMark at hread hliteral ⊢
  simp only at hread hliteral ⊢
  split
  · exact hname
  · rename_i hparenthesis
    rw [if_neg hparenthesis] at hread hliteral
    split
    · exact hname
    · rename_i arguments stop harguments
      simp only [harguments] at hread hliteral
      split
      · rename_i hquery
        simp only [hquery] at hread
        exact ⟨sign, stop, .refl sign, hhead.trans hread, .refl stop,
          hlt.trans_le hread.offset_le, rfl⟩
      · rename_i query hquery
        simp only [hquery] at hread hliteral
        cases hfragments : fragmentsFrom buffer language query.stop query.value with
        | error obstacle =>
          exact (spanned_of_argumentsFrom buffer harguments
            (mem_of_queryArgument? hquery)).of_reaches (hopening.trans (Cursor.reaches_advance _ 1))
        | ok fragments =>
          rw [hfragments] at hliteral
          obtain ⟨first, last, hfirst, hl, hlast⟩ := hliteral _ rfl
          exact ⟨first, last, hhead.trans hfirst, hl.fragments.reaches, hlast,
            hl.fragments.offset_lt.trans_le hlast.offset_le, hl.span⟩

/-- Spans behind a place, each at its own stretch of the text. -/
inductive InOrder (buffer : Nat) : Cursor → List Span → Prop
  | nil (c : Cursor) : InOrder buffer c []
  | cons {c d : Cursor} {s : Span} {spans : List Span} (hs : Spanned buffer c d s)
      (h : InOrder buffer d spans) : InOrder buffer c (s :: spans)

namespace InOrder

variable {buffer : Nat} {c : Cursor} {spans : List Span}

lemma of_reaches {b : Cursor} (h : InOrder buffer c spans) (hb : b.Reaches c) :
    InOrder buffer b spans := by
  cases h with
  | nil => exact .nil b
  | cons hs h => exact .cons (hs.of_reaches hb) h

/-- Each span runs between places of the text. -/
lemma exists_places (h : InOrder buffer c spans) {s : Span} (hs : s ∈ spans) :
    ∃ first last, c.Reaches first ∧ first.Reaches last ∧
      s = ⟨buffer, first.offset, last.offset⟩ := by
  induction h with
  | nil => cases hs
  | cons hspanned h ih =>
    obtain ⟨first, last, hfirst, hlast, hd, -, rfl⟩ := hspanned
    rcases List.mem_cons.1 hs with rfl | hs
    · exact ⟨first, last, hfirst, hlast, rfl⟩
    · obtain ⟨first', last', hfirst', hlast', rfl⟩ := ih hs
      exact ⟨first', last', hfirst.trans (hlast.trans (hd.trans hfirst')), hlast', rfl⟩

lemma pairwise (h : InOrder buffer c spans) :
    spans.Pairwise fun s t => s.start < t.start ∧ s.stop ≤ t.start := by
  induction h with
  | nil => exact .nil
  | cons hspanned h ih =>
    refine List.pairwise_cons.2 ⟨fun t ht => ?_, ih⟩
    obtain ⟨first, last, -, -, hd, hlt, rfl⟩ := hspanned
    obtain ⟨first', last', hfirst', -, rfl⟩ := h.exists_places ht
    exact ⟨hlt.trans_le hfirst'.offset_le, (hd.trans hfirst').offset_le⟩

end InOrder

/-- The span between two places falls between characters. -/
lemma cuts_of_reaches (buffer : Nat) {source : Text} {first last : Cursor}
    (hfirst : (Cursor.start source).Reaches first) (hlast : first.Reaches last) :
    (⟨buffer, first.offset, last.offset⟩ : Span).Cuts source := by
  obtain ⟨covered, hcovered, hoffset⟩ := hlast.exists_between
  have htext : first.text = source := hfirst.text_eq.trans (Cursor.text_start source)
  refine ⟨first.passed.reverse, covered, last.rest, ?_, (bytes_reverse _).symm, hoffset⟩
  rw [← htext, Cursor.text, hcovered]

/-- The scan reports in order. -/
lemma locateFrom_inOrder (buffer : Nat) (language : Language) (marks : Annotations) (c : Cursor) :
    InOrder buffer c ((locateFrom buffer language marks c).map Candidate.span) := by
  fun_induction locateFrom buffer language marks c with
  | case1 c => exact .nil c
  | case2 c x t hrest n _ ih => exact ih.of_reaches (c.reaches_advance (n + 1))
  | case3 c x t hrest _ n _ name head _ read ih =>
    have hlt : c.offset < head.offset := by
      rw [Cursor.offset_advance, hrest, List.take_succ_cons, bytes_cons]
      have := x.utf8Size_pos
      omega
    exact .cons (readMark_spanned buffer language marks name (c.reaches_advance (n + 1)) hlt) ih
  | case4 c x t hrest _ n _ name head _ ih => exact ih.of_reaches (c.reaches_advance (n + 1))
  | case5 c x t hrest _ _ _ ih => exact ih.of_reaches (c.reaches_advance 1)

end Host

open Host

/-- **What `locate` answers is well-formed.**  The spans of all candidates fall between characters
of the source, in order, and no two have anything in common; and each literal is a row of strings
that stand there, with what joins them between them. -/
theorem locate_wellFormed (buffer : Nat) (language : Language) (marks : Annotations)
    (source : Text) :
    (∀ k ∈ locate buffer language marks source, k.span.buffer = buffer ∧ k.span.Cuts source) ∧
      (locate buffer language marks source).Pairwise (fun k m =>
        k.span.start < m.span.start ∧ k.span.stop ≤ m.span.start) ∧
      ∀ l, .literal l ∈ locate buffer language marks source →
        l.WellFormed buffer language source := by
  have hordered := locateFrom_inOrder buffer language marks (.start source)
  refine ⟨fun k hk => ?_, List.pairwise_map.1 hordered.pairwise, fun l hl => ?_⟩
  · obtain ⟨first, last, hfirst, hlast, hspan⟩ :=
      hordered.exists_places (List.mem_map_of_mem hk)
    rw [hspan]
    exact ⟨rfl, cuts_of_reaches buffer hfirst hlast⟩
  · obtain ⟨first, last, hfirst, hfragments, hspan⟩ := exists_standsAt hl
    obtain ⟨hall, hpairwise, hlast, hjoined⟩ := hfragments.wellFormed
    obtain ⟨hstart, hstop⟩ := hfragments.ends
    have htext : first.text = source := hfirst.text_eq.trans (Cursor.text_start source)
    rw [htext] at hall hjoined
    refine ⟨?_, fun f hf => (hall f hf).1, hpairwise, ?_, ?_, ?_, hlast, hjoined⟩
    · intro hnil
      simp [hnil] at hstart
    · rw [hspan]
    · rw [hspan, hstart]
    · rw [hspan, hstop]

/-- Two strings that are concatenated, with a plus sign in the comment between them. -/
theorem locate_wellFormed_plus_in_comment :
    ∃ l, locate 0 .java {} "@Query(\"a\" /* + */ + \"b\")" = [.literal l] ∧
      l.WellFormed 0 .java "@Query(\"a\" /* + */ + \"b\")" ∧
      separators "@Query(\"a\" /* + */ + \"b\")" l.fragments = [" /* + */ + ".toList] := by
  have hlocate : locate 0 .java {} "@Query(\"a\" /* + */ + \"b\")" =
      [.literal ⟨"Query", ⟨0, 7, 24⟩,
        [⟨⟨0, 7, 10⟩, ⟨0, 8, 9⟩, .double, [], "\"", some .concatenation⟩,
          ⟨⟨0, 21, 24⟩, ⟨0, 22, 23⟩, .double, [], "\"", none⟩], .jpql⟩] := by
    decide +kernel
  refine ⟨_, hlocate, ?_, by decide +kernel⟩
  exact (locate_wellFormed 0 .java {} _).2.2 _ (by rw [hlocate]; exact List.mem_singleton_self _)

end SqlInlay
