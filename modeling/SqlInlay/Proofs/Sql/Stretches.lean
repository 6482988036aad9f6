import SqlInlay.Proofs.Sql.Setting

/-!
# Stretches of one line

Whatever is written on a line stays there: later moves write behind it or further down.  So what a
page looks like where some tokens were written in one go can be told from the line that they were
written on, long before the layout is complete.  This is how a statement about a single line, such
as the width of an item or the space between two operators, becomes one about the output of a whole
query.

**Lines.**  `Page.Keeps` says that a page still has a line, with something more behind it at most,
and everything above it.  Every move preserves it (`Page.Keeps.run`); the one that might not is a
mark that goes behind the last code, and it does not go above a line that has some.

**Tokens.**  The text of a line does not tell which tokens of the query it shows.  That is settled
by counting: each stroke is shown once (`Page.length_shown_run`), and hoisting leaves tokens in
their places that have no comment in front of them (`Hoisted.exists_split`).

**Parts.**  `Page.Presents.exists_stretch` puts the two together: tokens written in one go are
neighbouring parts of the output, with the spaces between them that the line has.
`exists_presents_of_parse` says of every query that its output can be presented so.
-/

namespace SqlInlay.Sql

open SqlInlay.Text

/-! ## Hoisting around a stretch -/

/-- Behind something that stays, a run without line comments keeps its place.  A step of hoisting
takes a mark over one line comment: it lies in front of the run or behind it, for what stays is no
mark and the run has no such comment. -/
lemma Hoisted.exists_split {α : Type} {kind : α → Kind} {l m front run back : List α} {x : α}
    (h : Hoisted kind l m) (hl : l = front ++ x :: (run ++ back))
    (hmoves : (kind x).movesUp = false) (hlight : ∀ y ∈ x :: run, kind y ≠ .lineComment) :
    ∃ front' back', m = front' ++ x :: (run ++ back') ∧ front'.length = front.length := by
  induction h with
  | refl => exact ⟨front, back, hl, rfl⟩
  | @step above below comment mark _ hcomment hmark ih =>
    obtain ⟨front', back', hm, hlength⟩ := ih
    have hlight' : comment ∉ x :: run := fun hmem => hlight comment hmem hcomment
    rcases List.append_eq_append_iff.1 hm with ⟨a, rfl, ha⟩ | ⟨a, rfl, ha⟩
    · match a, ha with
      | [], ha =>
        obtain ⟨rfl, -⟩ := List.cons.inj ha
        simp at hlight'
      | [c], ha =>
        obtain ⟨-, rfl, -⟩ : comment = c ∧ mark = x ∧ _ := by simpa using ha
        rw [hmark] at hmoves
        cases hmoves
      | c :: k :: a, ha =>
        obtain ⟨-, -, rfl⟩ : comment = c ∧ mark = k ∧ below = a ++ x :: (run ++ back') := by
          simpa using ha
        exact ⟨above ++ mark :: comment :: a, back', by simp, by simpa using hlength⟩
    · rw [← List.cons_append] at ha
      rcases List.append_eq_append_iff.1 ha with ⟨b, rfl, hb⟩ | ⟨b, hrun, hb⟩
      · exact ⟨front', b ++ mark :: comment :: below, by simp, hlength⟩
      · match b, hb with
        | [], hb =>
          rw [List.append_nil] at hrun
          exact ⟨front', mark :: comment :: below, by simp [← hrun], hlength⟩
        | c :: b, hb =>
          obtain ⟨rfl, -⟩ := List.cons.inj hb
          simp [hrun] at hlight'

/-! ## Counting what is shown -/

namespace Line

lemma length_shown_comment {l : Line} (h : l.note = none) (c : Comment) :
    (l.comment c).shown.length = l.shown.length + 1 := by
  unfold comment
  split
  · simp [shown, annotate, h]
  · simp only [shown, remark, h]
    split <;> simp_all [Piece.shown?, List.filterMap_cons]

end Line

namespace Page

variable {case : KeywordCase} {p : Page}

lemma shown_startLine (p : Page) (indent : Nat) : (p.startLine indent).shown = p.shown := by
  simp [shown, startLine, Line.shown, Line.empty]

lemma shown_ready (p : Page) : p.ready.shown = p.shown := by
  rcases p.ready_cases with ⟨indent, hready, -⟩ | ⟨hready, -⟩
  · rw [hready, shown_startLine]
  · rw [hready]

lemma exists_ready (p : Page) : ∃ l ls, p.ready.lines = l :: ls ∧ l.note = none := by
  rcases p.ready_cases with ⟨indent, hready, -⟩ | ⟨hready, l, ls, hl, hnote⟩
  · exact ⟨.empty indent, p.lines, by rw [hready]; rfl, rfl⟩
  · exact ⟨l, ls, by rw [hready, hl], hnote⟩

lemma length_shown_onLast {l : Line} {ls : List Line} (hp : p.lines = l :: ls) {f : Line → Line}
    (hf : (f l).shown.length = l.shown.length + 1) :
    (p.onLast f).shown.length = p.shown.length + 1 := by
  have hlines : (p.onLast f).lines = f l :: ls := by simp [onLast, hp]
  simp only [shown, hlines, hp, List.reverse_cons, List.flatMap_append, List.flatMap_singleton,
    List.length_append, hf]
  omega

lemma length_shown_ready {f : Line → Line}
    (hf : ∀ l : Line, l.note = none → (f l).shown.length = l.shown.length + 1) :
    (p.ready.onLast f).shown.length = p.shown.length + 1 := by
  obtain ⟨l, ls, hl, hnote⟩ := p.exists_ready
  rw [length_shown_onLast hl (hf l hnote), shown_ready]

lemma length_shown_write (p : Page) (t : Token) :
    (p.write case t).shown.length = p.shown.length + 1 :=
  length_shown_ready fun l hl => by
    rw [(Line.adds_write case t).shown l hl, List.length_append]
    rfl

lemma length_shown_attach (p : Page) (kind : Kind) (text : Text) :
    (p.attach kind text).shown.length = p.shown.length + 1 := by
  unfold attach
  split
  · rename_i changed hchanged
    obtain ⟨behind, l, ls, hlines, rfl, -⟩ := exists_of_onLastCode? hchanged
    simp only [shown, hlines, List.reverse_append, List.reverse_cons, List.flatMap_append,
      List.flatMap_singleton, List.length_append, Line.shown, Line.attach, List.filterMap_append,
      List.filterMap_cons, List.filterMap_nil, Piece.shown?, List.length_singleton]
    omega
  · exact length_shown_ready fun l hl => by
      rw [(Line.adds_attach kind text).shown l hl, List.length_append]
      rfl

lemma length_shown_put (p : Page) (s : Stroke) :
    (p.put case s).shown.length = p.shown.length + 1 := by
  cases s with
  | write t =>
    simp only [put, punctuate]
    split
    · split
      · exact length_shown_attach p t.kind t.text
      · exact length_shown_write p t
    · exact length_shown_write p t
  | glue t =>
    exact length_shown_ready fun l hl => by
      rw [(Line.adds_glue t).shown l hl, List.length_append]
      rfl
  | mark kind text => exact length_shown_attach p kind text
  | comment c =>
    simp only [put, comment]
    split
    · rw [length_shown_onLast (l := .empty _) rfl (Line.length_shown_comment rfl c),
        shown_startLine]
    · exact length_shown_ready fun l hl => Line.length_shown_comment hl c

/-- **Every stroke is shown**, and nothing else is: separators and indentation are no pieces, and a
move that puts no stroke shows none. -/
lemma length_shown_run (p : Page) (ms : List Move) :
    (p.run case ms).shown.length = p.shown.length + (strokesOf ms).length := by
  induction ms generalizing p with
  | nil => rfl
  | cons m ms ih =>
    have hrun := ih (p.step case m)
    rw [show p.run case (m :: ms) = (p.step case m).run case ms from rfl, hrun]
    cases m with
    | put s =>
      rw [step, length_shown_put, strokesOf_put, List.length_cons]
      omega
    | breakAt indent => rfl
    | continueAt indent => rfl
    | separate =>
      rw [step, separate, shown_startLine]
      rfl

end Page

/-! ## Lines that are kept -/

/-- A line with something more behind it at most.  Where it is indented and what is on it already
stays. -/
structure Line.Grows (l m : Line) : Prop where
  indent : m.indent = l.indent
  pieces : l.pieces <:+ m.pieces

namespace Line.Grows

variable {l m k : Line}

lemma refl (l : Line) : l.Grows l := ⟨rfl, List.suffix_rfl⟩

lemma trans (h : l.Grows m) (h' : m.Grows k) : l.Grows k :=
  ⟨h'.indent.trans h.indent, h.pieces.trans h'.pieces⟩

lemma write (case : KeywordCase) (l : Line) (t : Token) : l.Grows (l.write case t) := by
  refine ⟨rfl, ?_⟩
  simp only [Line.write, spaced]
  split
  · exact (List.suffix_cons _ _).trans (List.suffix_cons _ _)
  · exact List.suffix_cons _ _

lemma glue (l : Line) (t : Token) : l.Grows (l.glue t) := ⟨rfl, List.suffix_cons _ _⟩

lemma attach (l : Line) (kind : Kind) (text : Text) : l.Grows (l.attach kind text) :=
  ⟨rfl, List.suffix_cons _ _⟩

lemma comment (l : Line) (c : Comment) : l.Grows (l.comment c) := by
  unfold Line.comment
  split
  · exact ⟨rfl, List.suffix_rfl⟩
  · refine ⟨rfl, ?_⟩
    simp only [remark]
    split
    · rename_i hempty
      rw [List.isEmpty_iff.1 hempty]
      exact List.nil_suffix
    · exact (List.suffix_cons _ _).trans (List.suffix_cons _ _)

end Line.Grows

namespace Page

/-- The page has the line `l` right below the lines `ls`, with something more behind it at most. -/
def Keeps (p : Page) (l : Line) (ls : List Line) : Prop :=
  ∃ newer m, p.lines = newer ++ m :: ls ∧ l.Grows m

namespace Keeps

variable {case : KeywordCase} {p : Page} {l : Line} {ls : List Line}

lemma of_lines (h : p.lines = l :: ls) : p.Keeps l ls := ⟨[], l, h, .refl l⟩

lemma startLine (h : p.Keeps l ls) (indent : Nat) : (p.startLine indent).Keeps l ls := by
  obtain ⟨newer, m, hp, hm⟩ := h
  exact ⟨.empty indent :: newer, m, by simp [Page.startLine, hp], hm⟩

lemma ready (h : p.Keeps l ls) : p.ready.Keeps l ls := by
  rcases p.ready_cases with ⟨indent, hready, -⟩ | ⟨hready, -⟩
  · rw [hready]
    exact h.startLine indent
  · rwa [hready]

lemma onLast (h : p.Keeps l ls) {f : Line → Line} (hf : ∀ m : Line, m.Grows (f m)) :
    (p.onLast f).Keeps l ls := by
  obtain ⟨newer, m, hp, hm⟩ := h
  rcases newer with _ | ⟨k, newer⟩
  · exact ⟨[], f m, by simp [Page.onLast, hp], hm.trans (hf m)⟩
  · exact ⟨f k :: newer, m, by simp [Page.onLast, hp], hm⟩

/-- A mark goes behind code, and so it does not go above a line that has some.  It is put on that
line, on one below it, or on a new one. -/
lemma attach (h : p.Keeps l ls) (hl : l.pieces ≠ []) (kind : Kind) (text : Text) :
    (p.attach kind text).Keeps l ls := by
  unfold Page.attach
  split
  · rename_i changed hchanged
    obtain ⟨newer, m, hp, hm⟩ := h
    obtain ⟨behind, k, rest, hlines, rfl, hbare⟩ := exists_of_onLastCode? hchanged
    have hpieces : m.pieces ≠ [] := fun hnil => hl (List.suffix_nil.1 (hnil ▸ hm.pieces))
    rcases List.append_eq_append_iff.1 (hp.symm.trans hlines) with ⟨a, rfl, ha⟩ | ⟨a, rfl, ha⟩
    · match a, ha with
      | [], ha =>
        obtain ⟨rfl, rfl⟩ := List.cons.inj ha
        exact ⟨newer, _, by simp, hm.trans (.attach m kind text)⟩
      | b :: a, ha =>
        obtain ⟨rfl, -⟩ := List.cons.inj ha
        exact absurd (hbare m (by simp)) hpieces
    · match a, ha with
      | [], ha =>
        obtain ⟨rfl, rfl⟩ := List.cons.inj ha
        exact ⟨behind, _, rfl, hm.trans (.attach k kind text)⟩
      | b :: a, ha =>
        obtain ⟨rfl, rfl⟩ := List.cons.inj ha
        exact ⟨behind ++ k.attach kind text :: a, m, by simp, hm⟩
  · exact h.ready.onLast fun m => .attach m kind text

lemma write (h : p.Keeps l ls) (t : Token) : (p.write case t).Keeps l ls :=
  h.ready.onLast fun m => .write case m t

lemma put (h : p.Keeps l ls) (hl : l.pieces ≠ []) (s : Stroke) : (p.put case s).Keeps l ls := by
  cases s with
  | write t =>
    simp only [Page.put, punctuate]
    split
    · split
      · exact h.attach hl t.kind t.text
      · exact h.write t
    · exact h.write t
  | glue t => exact h.ready.onLast fun m => .glue m t
  | mark kind text => exact h.attach hl kind text
  | comment c =>
    simp only [Page.put, Page.comment]
    split
    · exact (h.startLine _).onLast fun m => .comment m c
    · exact h.ready.onLast fun m => .comment m c

/-- **Lines with code are kept**, whatever is printed next.  Later moves may add to their ends, as
commas and comments are, but change nothing that is there. -/
lemma run (h : p.Keeps l ls) (hl : l.pieces ≠ []) (ms : List Move) :
    (p.run case ms).Keeps l ls := by
  induction ms generalizing p with
  | nil => exact h
  | cons m ms ih =>
    refine ih (p := p.step case m) ?_
    cases m with
    | put s => exact h.put hl s
    | breakAt indent => exact h
    | continueAt indent => exact h
    | separate => exact h.startLine 0

end Keeps

end Page

/-! ## The parts of a line that is kept -/

namespace Part

variable {α β : Type}

/-- The parts of an indentation. -/
def indentation (indent : Nat) : List (Part α) :=
  if indent = 0 then [] else [.blank (fill indent ' ')]

lemma filterMap_piece?_map (g : β → α) (ps : List (Part β)) :
    (ps.map (map g)).filterMap piece? = (ps.filterMap piece?).map g := by
  induction ps with
  | nil => rfl
  | cons p ps ih => cases p <;> simp [map, ih]

/-- Parts are determined by their pieces and by what they are taken to. -/
lemma eq_of_map {g : β → α} {ps qs : List (Part β)} (hmap : ps.map (map g) = qs.map (map g))
    (hpieces : ps.filterMap piece? = qs.filterMap piece?) : ps = qs := by
  induction ps generalizing qs with
  | nil => exact (List.map_eq_nil_iff.1 hmap.symm).symm
  | cons p ps ih =>
    obtain ⟨q, qs, rfl, hq, hrest⟩ := List.map_eq_cons_iff.1 hmap.symm
    cases p with
    | blank t =>
      cases q with
      | blank u =>
        obtain rfl : u = t := by simpa [map] using hq
        exact congrArg _ (ih hrest.symm (by simpa using hpieces))
      | piece b => cases hq
    | piece a =>
      cases q with
      | blank u => cases hq
      | piece b =>
        rw [filterMap_piece?_piece, filterMap_piece?_piece] at hpieces
        obtain ⟨rfl, htail⟩ := List.cons.inj hpieces
        exact congrArg _ (ih hrest.symm htail)

lemma map_eq_indentation {g : β → α} {ps : List (Part β)} {indent : Nat}
    (h : ps.map (map g) = indentation indent) : ps = indentation indent := by
  by_cases hindent : indent = 0
  · rw [indentation, if_pos hindent] at h ⊢
    exact List.map_eq_nil_iff.1 h
  · rw [indentation, if_neg hindent] at h ⊢
    obtain ⟨p, rest, rfl, hp, hrest⟩ := List.map_eq_cons_iff.1 h
    obtain rfl := List.map_eq_nil_iff.1 hrest
    cases p with
    | blank t =>
      rw [map, blank.injEq] at hp
      rw [hp]
    | piece a => cases hp

/-- Parts are at the start of a line. -/
def StartLine (above : List (Part α)) : Prop :=
  above = [] ∨ ∃ front, above = front ++ [blank ['\n']]

lemma startLine_of_map {g : β → α} {ps : List (Part β)} (h : StartLine (ps.map (map g))) :
    StartLine ps := by
  rcases h with h | ⟨front, h⟩
  · exact .inl (List.map_eq_nil_iff.1 h)
  · obtain ⟨front', rest, rfl, -, hrest⟩ := List.map_eq_append_iff.1 h
    obtain ⟨p, rest, rfl, hp, hrest⟩ := List.map_eq_cons_iff.1 hrest
    obtain rfl := List.map_eq_nil_iff.1 hrest
    cases p with
    | blank t => exact .inr ⟨front', by simpa [map] using hp⟩
    | piece a => cases hp

/-- A line among lines. -/
lemma exists_unlines (lines : List (List (Part α))) (l : List (Part α))
    (others : List (List (Part α))) :
    ∃ above below, unlines (lines ++ l :: others) = above ++ (l ++ below) ∧
      above.filterMap piece? = lines.flatMap (·.filterMap piece?) ∧ StartLine above := by
  induction lines with
  | nil =>
    cases others with
    | nil => exact ⟨[], [], by simp [unlines], rfl, .inl rfl⟩
    | cons m others => exact ⟨[], .blank ['\n'] :: unlines (m :: others), rfl, rfl, .inl rfl⟩
  | cons k lines ih =>
    obtain ⟨above, below, hlines, habove, hstart⟩ := ih
    refine ⟨k ++ .blank ['\n'] :: above, below, ?_, by simp [List.filterMap_append, habove], ?_⟩
    · obtain ⟨m, rest, hrest⟩ : ∃ m rest, lines ++ l :: others = m :: rest :=
        List.exists_cons_of_ne_nil (by simp)
      rw [List.cons_append, hrest, unlines, ← hrest, hlines]
      · simp
      · simp
    · rcases hstart with rfl | ⟨front, rfl⟩
      · exact .inr ⟨k, rfl⟩
      · exact .inr ⟨k ++ .blank ['\n'] :: front, by simp⟩

end Part

lemma filterMap_piece?_part (ps : List Piece) :
    (ps.map Piece.part).filterMap Part.piece? = ps.filterMap Piece.shown? := by
  rw [List.filterMap_map]
  congr 1
  funext p
  cases p <;> rfl

/-- A line that a page keeps is found among its parts, with all that has been put behind its pieces
since; in front of it is what the lines above it show. -/
lemma Page.Keeps.exists_parts {p : Page} {l : Line} {ls : List Line} (h : p.Keeps l ls)
    (hl : l.pieces ≠ []) :
    ∃ above below, p.parts = above ++ (l.indentParts ++ l.pieces.reverse.map Piece.part ++ below) ∧
      above.filterMap Part.piece? = ls.reverse.flatMap Line.shown ∧ Part.StartLine above := by
  obtain ⟨newer, m, hp, hindent, more, hm⟩ := h
  have hpieces : m.pieces ≠ [] := by simp [← hm, hl]
  have hbare : m.isBare = false := by simp [Line.isBare, hpieces]
  obtain ⟨kept, hkept⟩ : ∃ kept, p.lines.dropWhile Line.isBare = kept ++ m :: ls := by
    rw [hp, List.dropWhile_append]
    split
    · exact ⟨[], by simp [hbare]⟩
    · exact ⟨_, rfl⟩
  obtain ⟨above, below, hparts, habove, hstart⟩ :=
    Part.exists_unlines (ls.reverse.map Line.parts) m.parts (kept.reverse.map Line.parts)
  have hmparts : m.parts = l.indentParts ++ l.pieces.reverse.map Piece.part ++
      (more.reverse.map Piece.part ++ m.noteParts) := by
    rw [Line.parts, hbare, ← hm, Line.indentParts, hindent, ← Line.indentParts]
    simp
  refine ⟨above, more.reverse.map Piece.part ++ m.noteParts ++ below, ?_, ?_, hstart⟩
  · rw [Page.parts, hkept]
    simpa [hmparts] using hparts
  · rw [habove, List.flatMap_map]
    congr 1
    funext k
    exact k.filterMap_piece?_parts

/-! ## Tokens written in one go -/

/-- The parts of some tokens that are written on a line: each with a space in front if it needs one
there. -/
def writtenParts (case : KeywordCase) : List Token → Line → List (Part Token)
  | [], _ => []
  | t :: ts, l =>
    (if l.last.any (needsSpace · t) then [.blank [' ']] else []) ++
      .piece t :: writtenParts case ts (l.write case t)

section Written

variable (case : KeywordCase)

lemma filterMap_piece?_writtenParts (ts : List Token) (l : Line) :
    (writtenParts case ts l).filterMap Part.piece? = ts := by
  induction ts generalizing l with
  | nil => rfl
  | cons t ts ih =>
    rw [writtenParts]
    split <;> simp [ih]

/-- All blanks between tokens that are written on a line are single spaces. -/
lemma blank_mem_writtenParts {ts : List Token} {l : Line} {t : Text}
    (h : .blank t ∈ writtenParts case ts l) : t = [' '] := by
  induction ts generalizing l with
  | nil => cases h
  | cons u us ih =>
    rw [writtenParts, List.mem_append, List.mem_cons] at h
    rcases h with h | h | h
    · split at h
      · simpa using h
      · cases h
    · cases h
    · exact ih h

lemma writeAll_cons (t : Token) (ts : List Token) (l : Line) :
    writeAll case (t :: ts) l = writeAll case ts (l.write case t) := rfl

lemma indent_writeAll (ts : List Token) (l : Line) :
    (writeAll case ts l).indent = l.indent := by
  induction ts generalizing l with
  | nil => rfl
  | cons t ts ih => exact ih (l.write case t)

/-- A line on which some tokens were written has their parts behind its own. -/
lemma map_part_writeAll {ts : List Token} (hcode : ∀ t ∈ ts, t.isComment = false) (l : Line) :
    (writeAll case ts l).pieces.reverse.map Piece.part = l.pieces.reverse.map Piece.part ++
      (writtenParts case ts l).map (Part.map fun t => Shown.of case t.kind t.text) := by
  induction ts generalizing l with
  | nil => exact (List.append_nil _).symm
  | cons t ts ih =>
    rw [List.forall_mem_cons] at hcode
    have hshown : Shown.of case t.kind t.text = .code (Line.spelling case t) :=
      Page.shown_ofToken hcode.1 .plain case
    rw [writeAll_cons, ih hcode.2, writtenParts]
    simp only [Line.write, Line.spaced]
    split <;> simp [Piece.part, Part.map, hshown]

lemma writeAll_pieces_ne_nil {ts : List Token} (hne : ts ≠ []) (l : Line) :
    (writeAll case ts l).pieces ≠ [] := by
  obtain ⟨t, ts, rfl⟩ := List.exists_cons_of_ne_nil hne
  have hpieces : (l.write case t).pieces ≠ [] := by simp [Line.write]
  rw [writeAll_cons]
  generalize l.write case t = m at hpieces
  induction ts generalizing m with
  | nil => exact hpieces
  | cons u us ih => exact ih (by simp) (m.write case u) (by simp [Line.write])

end Written

/-- In front of what is written next, as much is shown as was put. -/
lemma Page.length_shown_before {case : KeywordCase} {ms : List Move} {l : Line} {ls : List Line}
    (hready : (Page.empty.run case ms).ready.lines = l :: ls) (hnote : l.note = none) :
    (ls.reverse.flatMap Line.shown).length + (l.pieces.reverse.filterMap Piece.shown?).length =
      (strokesOf ms).length := by
  have hrun : (Page.empty.run case ms).shown.length = 0 + _ := length_shown_run .empty ms
  rw [← shown_ready, shown, hready] at hrun
  simpa [Line.shown, hnote] using hrun

/-- Tokens behind neighbouring strokes are neighbours. -/
lemma exists_tokens_of_settled {tokens ts : List Token} {es rest : List Stroke}
    (h : Settled ((words tokens).map Word.stroke) (es ++ (ts.map .write ++ rest))) :
    ∃ before after, tokens.filter (·.kind != .blank) = before ++ (ts ++ after) ∧
      before.length = es.length := by
  rw [← map_token_wordsOf true false tokens, ← words]
  obtain ⟨front, back, hwords, hfront, hback⟩ := exists_append_of_forall₂ h.flip
  obtain ⟨run, behind, rfl, hrun, -⟩ := exists_append_of_forall₂ hback
  obtain ⟨front, rest', hsplit, rfl, hrest⟩ := List.map_eq_append_iff.1 hwords
  obtain ⟨run, behind, rfl, rfl, rfl⟩ := List.map_eq_append_iff.1 hrest
  refine ⟨front.map Word.token, behind.map Word.token, ?_, by simpa using hfront.length_eq.symm⟩
  have htokens : run.map Word.token = ts := by
    rw [List.forall₂_map_left_iff, List.forall₂_map_right_iff] at hrun
    rw [← List.forall₂_eq_eq_eq, List.forall₂_map_left_iff]
    exact hrun.flip.imp fun w t hwt => Word.token_eq_of_settles hwt (.inl rfl)
  rw [hsplit, List.map_append, List.map_append, htokens]

/-- Parts present the tokens of a query as a page shows them: they read as the page does, and their
tokens are those of the query up to hoisting. -/
structure Page.Presents (case : KeywordCase) (tokens : List Token) (p : Page)
    (parts : List (Part Token)) : Prop where
  shown : parts.map (Part.map fun t => Shown.of case t.kind t.text) = p.parts
  order : Hoisted Token.kind (tokens.filter (·.kind != .blank)) (parts.filterMap Part.piece?)

/-- **Tokens written in one go** on a line are neighbouring parts of the output, with the blanks
between them that the line has. -/
lemma Page.Presents.exists_stretch {case : KeywordCase} {tokens ts : List Token} {p : Page}
    {parts : List (Part Token)} {ms : List Move} {rest : List Stroke} {l : Line} {ls : List Line}
    (h : p.Presents case tokens parts)
    (hsettled : Settled ((words tokens).map Word.stroke) (strokesOf ms ++ (ts.map .write ++ rest)))
    (hready : (Page.empty.run case ms).ready.lines = l :: ls) (hnote : l.note = none)
    (hkeeps : p.Keeps (writeAll case ts l) ls) (hne : ts ≠ [])
    (hmoves : ∀ t ∈ ts.head?, t.kind.movesUp = false) (hcode : ∀ t ∈ ts, t.isComment = false) :
    ∃ above below, parts = above ++ (writtenParts case ts l ++ below) ∧
      (l.pieces = [] → ∃ front, above = front ++ Part.indentation l.indent ∧
        Part.StartLine front) := by
  have hlight : ∀ t ∈ ts, t.kind ≠ .lineComment := by
    intro t ht hkind
    have hcomment := hcode t ht
    simp [Token.isComment, hkind] at hcomment
  obtain ⟨before, after, htokens, hbefore⟩ := exists_tokens_of_settled hsettled
  obtain ⟨before', after', hshown, hbefore'⟩ : ∃ before' after',
      parts.filterMap Part.piece? = before' ++ (ts ++ after') ∧ before'.length = before.length := by
    obtain ⟨t, run, rfl⟩ := List.exists_cons_of_ne_nil hne
    exact h.order.exists_split htokens (hmoves t rfl) hlight
  obtain ⟨above, below, hparts, habove, hstart⟩ :=
    hkeeps.exists_parts (writeAll_pieces_ne_nil case hne l)
  rw [map_part_writeAll case hcode] at hparts
  have hsplit := h.shown.trans hparts
  obtain ⟨front, tail, rfl, rfl, htail⟩ := List.map_eq_append_iff.1 hsplit
  obtain ⟨stretch, below', rfl, hstretch, -⟩ := List.map_eq_append_iff.1 htail
  obtain ⟨lead, body, rfl, hlead, hbody⟩ := List.map_eq_append_iff.1 hstretch
  obtain ⟨old, line, rfl, hold, hline⟩ := List.map_eq_append_iff.1 hbody
  have hlead' : lead = Part.indentation l.indent := by
    refine Part.map_eq_indentation (hlead.trans ?_)
    rw [Line.indentParts, indent_writeAll, Part.indentation]
  have hblank : lead.filterMap Part.piece? = [] := by
    rw [hlead', Part.indentation]
    split <;> rfl
  have hcount : ((front ++ (lead ++ old)).filterMap Part.piece?).length = before'.length := by
    have hold' := congrArg (List.length ∘ List.filterMap Part.piece?) hold
    have habove' := congrArg List.length habove
    have hput := Page.length_shown_before hready hnote
    simp only [Function.comp_apply, Part.filterMap_piece?_map, filterMap_piece?_part,
      List.length_map] at hold' habove'
    simp only [List.filterMap_append, hblank, List.length_append, List.length_nil]
    omega
  have hwritten : (line.filterMap Part.piece?).length = ts.length := by
    have hlength := congrArg List.length (congrArg (List.filterMap Part.piece?) hline)
    rwa [Part.filterMap_piece?_map, Part.filterMap_piece?_map, filterMap_piece?_writtenParts,
      List.length_map, List.length_map] at hlength
  have hpieces : (front ++ (lead ++ old)).filterMap Part.piece? ++
      (line.filterMap Part.piece? ++ below'.filterMap Part.piece?) =
      before' ++ (ts ++ after') := by
    simpa [List.filterMap_append] using hshown
  obtain ⟨-, hbehind⟩ := List.append_inj hpieces hcount
  have hline' : line = writtenParts case ts l := by
    refine Part.eq_of_map hline ?_
    rw [filterMap_piece?_writtenParts]
    exact (List.append_inj hbehind hwritten).1
  refine ⟨front ++ (lead ++ old), below', by simp [hline'], fun hnil => ⟨front, ?_, ?_⟩⟩
  · rw [hnil] at hold
    rw [hlead', List.map_eq_nil_iff.1 hold, List.append_nil]
  · exact Part.startLine_of_map hstart

/-- A query that parses is laid out losslessly, in parts that present its tokens. -/
lemma exists_presents_of_parse {query : Text} {dialect : Dialect} {script : Script}
    (h : parse query dialect = .ok script) (style : Style) :
    ∃ tokens parts, tokenize query = .ok tokens ∧
      formatQuery style dialect query = .ok (Script.format style script) ∧
      Lossless style.keywordCase query tokens (Script.format style script) parts ∧
      (Script.layOut style script).Presents style.keywordCase tokens parts := by
  obtain ⟨tokens, htokens, hholds⟩ := exists_holds_of_parse h style
  obtain ⟨parts, hlossless, hshown⟩ := hholds.exists_parts htokens
  exact ⟨tokens, parts, htokens, by rw [formatQuery, h]; rfl, hlossless, hshown, hlossless.order⟩

end SqlInlay.Sql
