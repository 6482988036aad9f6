import Mathlib.Data.List.Chain
import SqlInlay.Proofs.Sql.Charting
import SqlInlay.Proofs.Sql.Words

/-!
# Rows of strokes

A page is lines of text; behind it are rows of strokes.  A `Cell` is a stroke with the one thing
that reading the layout again depends on: whether something blank stands in front of it.  This
module says of every page that can come out of printing which rows are behind it and what may stand
side by side in them.

**Side by side.**  `Cell.Follows` restricts neighbours from both sides.  Strokes that touch in the
layout do so because no rule keeps them apart (`Stroke.Meets`), and a stroke that clings to another
(`Stroke.Clings`) is never parted from it.  The first is needed to see that no two tokens become
one, the second to see that a dot stays with its name.

**The invariant** has two parts.

* `Page.Reads` — the lines of a page read as some rows, whose strokes are those put so far, hoisted
  at most, and follow each other.
* `Page.Tip` — where the next stroke goes, as far as its neighbour in front decides it: a line may
  be broken where one is asked for, and an open line remembers what was put on it last.

**Steps.**  There is one lemma for each way in which a page changes.  Lines are started
(`Page.Reads.startLine`), code is put behind code (`Page.Reads.put`), a comment closes a line
(`Page.Reads.annotate`), and a mark goes behind the last code, over the comments that stand there
(`Page.Reads.attach`).  `Page.Laid.put` combines them for a stroke of any sort.

**Runs.**  As putting a stroke keeps both parts, a lawful run from the empty page does
(`Page.Laid.run`), and a layout is such a run (`Script.charted_layOut`).
-/

namespace SqlInlay.Sql

open SqlInlay.Text

/-! ## Signs -/

/-- The token is a plus or a minus. -/
def Token.isSign (t : Token) : Bool := t.kind == .operator && (t.text == "-" || t.text == "+")

/-- What is behind a token of the kind starts an operand. -/
def Kind.asksForOperand : Kind → Bool
  | .operator | .openParen | .comma => true
  | .keyword word => !(word ∈ [.END, .NULL, .TRUE, .FALSE])
  | _ => false

/-- A sign is unary at the start of a line and behind what asks for an operand. -/
lemma isUnary_eq (before : Option Trace) (t : Token) :
    isUnary before t = (t.isSign && before.all (·.kind.asksForOperand)) := by
  rcases before with _ | ⟨kind, text, stop, unary⟩
  · rfl
  · cases kind <;> rfl

/-- The words that head a clause ask for an operand. -/
lemma asksForOperand_of_isClauseWord {t : Token} (h : t.isClauseWord = true) :
    t.kind.asksForOperand = true := by
  obtain ⟨u, word, hu, hword, hmem⟩ := Node.exists_spells (n := .token t) h
  obtain rfl := Node.token.inj hu
  have hall : [Keyword.WITH, .RECURSIVE, .SELECT, .DISTINCT, .ALL, .FROM, .WHERE, .GROUP, .BY,
      .HAVING, .ORDER, .UNION, .INTERSECT, .EXCEPT, .LIMIT, .OFFSET, .UPDATE, .SET, .DELETE,
      .INSERT, .INTO, .VALUES].all (fun word => (Kind.keyword word).asksForOperand) = true := by
    decide
  rw [hword]
  exact List.all_eq_true.1 hall word hmem

/-! ## Strokes side by side

What a layout decides about two strokes depends on the trace that the first one left on the line,
and a trace tells less than the stroke: a comment leaves no text, and a sign is unary or not
depending on where it was written.  `Stroke.Traces` lists the traces that a stroke can leave, so
that the relations between two strokes can be stated without the page.
-/

namespace Stroke

/-- A sign that may stand in front of an operand. -/
def isSign (s : Stroke) : Bool := s.kind == .operator && (s.text == "-" || s.text == "+")

/-- Strokes are what they are called. -/
def Proper : Stroke → Prop
  | write t => t.isComment = false
  | glue t => t.kind = .openParen ∨ t.kind = .closeParen
  | mark kind _ => kind.movesUp = true
  | comment c => c.token.isComment = true

/-- There are no comments among some strokes. -/
def Free (es : List Stroke) : Prop := ∀ c, comment c ∉ es

/-- A line may start with a stroke that comes behind `es`.  Where tokens may have moved up over
comments, a line may start for their sake. -/
def Starts (es : List Stroke) (s : Stroke) : Prop :=
  ∀ r ∈ es.getLast?, r.allowsBehind = true ∨ s.allowsBefore = true ∨
    r.kind.movesUp = true ∧ ¬ Free es

/-- Behind the strokes `es`, a stroke may be traced as a unary sign: it starts a line, or what is in
front of it asks for an operand. -/
def Signals (es : List Stroke) (s : Stroke) : Prop :=
  s.isSign = true ∧ (s.Starts es ∨
    ∀ r ∈ es.getLast?, ∀ t, s = write t → isUnary (some (.remark r.kind)) t = true)

/-- The stroke, put behind `es`, leaves the trace that it leaves where it is written. -/
def Prints (es : List Stroke) (s : Stroke) (τ : Trace) : Prop :=
  ∃ unary, (unary = true → s.Signals es) ∧ τ = s.trace unary

/-- A trace that the stroke can leave on a line, behind the strokes `es`. -/
def Traces (es : List Stroke) (s : Stroke) (τ : Trace) : Prop :=
  s.Prints es τ ∨ s.kind.movesUp = true ∧ ¬ Free es ∧ τ = .mark s.kind s.text

/-- No rule keeps the second stroke apart from the first. -/
def Meets (all : List Stroke) (s r : Stroke) : Prop :=
  r.kind.movesUp = true ∨ (∃ t, r = .glue t) ∨
    ∃ t es rest τ, r = .write t ∧ all = es ++ s :: r :: rest ∧ s.Traces es τ ∧
      needsSpace τ t = false

/-- The second stroke stays with the first: no rule asks for a space, and no line breaks between
them.  Behind a token that may have moved up this is only known where there are no comments. -/
structure Clings (all : List Stroke) (s r : Stroke) : Prop where
  written : ∃ u, r = .write u ∧ ∀ unary, (unary = true → s.isSign = true) →
    needsSpace (s.trace unary) u = false
  stays : r.kind.movesUp = false
  light : s.kind ≠ .lineComment
  behind : s.allowsBehind = false
  before : r.allowsBefore = false
  free : s.kind.movesUp = true → Free all

/-- A stroke as a layout shows it. -/
def shown (case : KeywordCase) (s : Stroke) : Text := written case s.kind s.text

variable {all es : List Stroke} {s r : Stroke}

lemma allowsBehind_of_isAside (h : s.isAside = true) : s.allowsBehind = true := by
  cases s <;> simp_all [isAside, allowsBehind]

lemma not_clings_comment {c : Comment} : ¬ s.Clings all (.comment c) := by
  rintro ⟨⟨u, hu, -⟩, -⟩
  cases hu

lemma not_clings_glue {t : Token} : ¬ s.Clings all (.glue t) := by
  rintro ⟨⟨u, hu, -⟩, -⟩
  cases hu

lemma not_clings_of_movesUp (h : r.kind.movesUp = true) : ¬ s.Clings all r := by
  intro hclings
  have hstays := hclings.stays
  rw [h] at hstays
  cases hstays

lemma Free.of_append {rest : List Stroke} (h : Free (es ++ rest)) : Free es :=
  fun c hc => h c (List.mem_append_left _ hc)

/-- No line starts between strokes that cling to each other. -/
lemma not_clings_of_starts (h : r.Starts es) (hs : s ∈ es.getLast?) {rest : List Stroke}
    (hall : all = es ++ rest) : ¬ s.Clings all r := by
  intro hclings
  rcases h s hs with hbehind | hbefore | ⟨hmoves, hfree⟩
  · rw [hclings.behind] at hbehind
    cases hbehind
  · rw [hclings.before] at hbefore
    cases hbefore
  · exact hfree (Free.of_append (hall ▸ hclings.free hmoves))

/-- A trace is of the kind of its stroke. -/
lemma Traces.kind {τ : Trace} (h : s.Traces es τ) : τ.kind = s.kind := by
  rcases h with ⟨unary, -, rfl⟩ | ⟨-, -, rfl⟩
  · exact kind_trace unary s
  · rfl

end Stroke

/-! ## Cells and rows -/

/-- A stroke on a line, and whether a space or the start of the line stands in front of it. -/
structure Cell where
  apart : Bool
  stroke : Stroke
deriving DecidableEq, Repr

namespace Cell

/-- The cell as text, with a space for what stands in front of it. -/
def text (case : KeywordCase) (a : Cell) : Text :=
  (if a.apart then [' '] else []) ++ a.stroke.shown case

/-- One cell may stand behind another. -/
structure Follows (all : List Stroke) (a b : Cell) : Prop where
  meets : b.apart = false → a.stroke.Meets all b.stroke
  parts : b.apart = true → ¬ a.stroke.Clings all b.stroke

lemma follows_of_not_clings {all : List Stroke} {a b : Cell} (hb : b.apart = true)
    (h : ¬ a.stroke.Clings all b.stroke) : a.Follows all b :=
  ⟨fun hmeets => absurd (hb.symm.trans hmeets) (by simp), fun _ => h⟩

end Cell

/-- The strokes of a line: its code, and a line comment behind it. -/
structure Row where
  code : List Cell
  note : Option Comment
deriving DecidableEq, Repr

namespace Row

/-- A row with nothing on it. -/
def empty : Row := ⟨[], none⟩

/-- The cell of the line comment at the end. -/
def noteCells (r : Row) : List Cell := r.note.toList.map (⟨true, .comment ·⟩)

/-- The cells of a row from left to right. -/
def cells (r : Row) : List Cell := r.code ++ r.noteCells

@[simp] lemma cells_empty : empty.cells = [] := rfl

end Row

/-- The cells of some rows, the last of which comes first. -/
def cellsOf (rows : List Row) : List Cell := rows.reverse.flatMap Row.cells

@[simp] lemma cellsOf_cons (r : Row) (rows : List Row) :
    cellsOf (r :: rows) = cellsOf rows ++ r.cells := by
  simp [cellsOf]

@[simp] lemma cellsOf_append (rows rows' : List Row) :
    cellsOf (rows ++ rows') = cellsOf rows' ++ cellsOf rows := by
  simp [cellsOf]

/-! ## Lines as rows -/

namespace Line

variable {case : KeywordCase} {l m : Line} {r : Row} {s : Stroke} {gap : Bool}

/-- A line reads as a row. -/
structure Reads (case : KeywordCase) (l : Line) (r : Row) : Prop where
  text : r.code ≠ [] → ' ' :: l.code = r.code.flatMap (Cell.text case)
  bare : l.pieces = [] ↔ r.code = []
  note : l.note = r.note.map fun c => trimEnd c.token.text
  light : ∀ a ∈ r.code, a.stroke.kind ≠ .lineComment
  heavy : ∀ c ∈ r.note, c.token.kind = .lineComment
  apart : ∀ a ∈ r.code.head?, a.apart = true

lemma reads_empty (case : KeywordCase) (indent : Nat) : (empty indent).Reads case .empty :=
  ⟨fun h => absurd rfl h, by simp [empty, Row.empty], rfl, by simp [Row.empty],
    by simp [Row.empty], by simp [Row.empty]⟩

/-- The line `m` is the line `l` with a stroke behind its code, and a space between if `gap` says
so. -/
structure Puts (case : KeywordCase) (s : Stroke) (gap : Bool) (l m : Line) : Prop where
  note : m.note = l.note
  pieces : m.pieces ≠ []
  code : m.code = l.code ++ ((if gap then [' '] else []) ++ s.shown case)
  start : l.pieces = [] → gap = false

/-- A stroke behind the code of a line is a cell behind the code of its row.  The first cell of a
row counts as standing apart, because a line break is in front of it. -/
lemma Reads.put (h : l.Reads case r) (hm : Puts case s gap l m) (hs : s.kind ≠ .lineComment) :
    m.Reads case ⟨r.code ++ [⟨gap || r.code.isEmpty, s⟩], r.note⟩ := by
  constructor
  case text =>
    intro _
    by_cases hcode : r.code = []
    · have hpieces := h.bare.2 hcode
      have hl : l.code = [] := by simp [Line.code, hpieces]
      simp [hm.code, hl, hm.start hpieces, hcode, Cell.text]
    · rw [hm.code, ← List.cons_append, h.text hcode]
      simp [hcode, Cell.text]
  case bare => simp [hm.pieces]
  case note => rw [hm.note, h.note]
  case light => exact List.forall_mem_append.2 ⟨h.light, by simpa using hs⟩
  case heavy => exact h.heavy
  case apart =>
    intro a ha
    rcases hcode : r.code with _ | ⟨b, bs⟩
    · rw [hcode] at ha
      obtain rfl : _ = a := by simpa using ha
      simp
    · rw [hcode] at ha
      obtain rfl : b = a := by simpa using ha
      exact h.apart b (by simp [hcode])

lemma puts_write {t : Token} (ht : (Stroke.write t).Proper) (hl : l.pieces = [] → l.last = none) :
    Puts case (.write t) (l.last.any (needsSpace · t)) l (l.write case t) := by
  have hcomment : t.isComment = false := ht
  have hshown : spelling case t = (Stroke.write t).shown case := by
    unfold spelling Stroke.shown written
    cases hk : t.kind <;> simp_all [Stroke.kind, Stroke.text, Token.isComment]
  refine ⟨rfl, by simp [write], ?_, fun hpieces => by simp [hl hpieces]⟩
  rw [← hshown]
  unfold write spaced code
  split <;> simp_all [Piece.text]

lemma puts_glue {t : Token} (ht : (Stroke.glue t).Proper) :
    Puts case (.glue t) false l (l.glue t) := by
  have hkind : t.kind = .openParen ∨ t.kind = .closeParen := ht
  have hshown : (Stroke.glue t).shown case = t.text := by
    rcases hkind with hk | hk <;> simp [Stroke.shown, Stroke.kind, Stroke.text, written, hk]
  exact ⟨rfl, by simp [glue], by simp [glue, code, Piece.text, hshown], fun _ => rfl⟩

lemma puts_attach (hs : s.kind.movesUp = true) :
    Puts case s false l (l.attach s.kind s.text) := by
  have hshown : s.shown case = s.text := by
    unfold Stroke.shown written
    cases hk : s.kind <;> simp_all [Kind.movesUp]
  exact ⟨rfl, by simp [attach], by simp [attach, code, Piece.text, hshown], fun _ => rfl⟩

lemma puts_remark {c : Comment} (hc : (Stroke.comment c).Proper) (hline : c.isLine = false) :
    Puts case (.comment c) (!l.pieces.isEmpty) l (l.comment c) := by
  have hcomment : c.token.isComment = true := hc
  have hshown : (Stroke.comment c).shown case = c.token.text := by
    unfold Stroke.shown written
    cases hk : c.token.kind <;>
      simp_all [Stroke.kind, Stroke.text, Token.isComment, Comment.isLine]
  have hremark : l.comment c = l.remark c.token := by simp [comment, hline]
  rw [hremark]
  refine ⟨rfl, by simp [remark], ?_, fun hpieces => by simp [hpieces]⟩
  rw [hshown]
  unfold remark code
  split <;> simp_all [Piece.text]

/-- A line comment at the end of an open line is the note of its row. -/
lemma Reads.annotate (h : l.Reads case r) {c : Comment} (hline : c.isLine = true) :
    (l.comment c).Reads case ⟨r.code, some c⟩ := by
  have hcomment : l.comment c = l.annotate c.token := by simp [comment, hline]
  rw [hcomment]
  exact ⟨h.text, h.bare, rfl, h.light, by simpa [Comment.isLine] using hline, h.apart⟩

end Line

/-- Related lists split together. -/
lemma exists_append_of_forall₂ {α β : Type} {R : α → β → Prop} {l l' : List α} {m : List β}
    (h : List.Forall₂ R (l ++ l') m) :
    ∃ k k', m = k ++ k' ∧ List.Forall₂ R l k ∧ List.Forall₂ R l' k' := by
  induction l generalizing m with
  | nil => exact ⟨[], m, rfl, .nil, h⟩
  | cons a l ih =>
    obtain ⟨b, m, hab, hrest, rfl⟩ := List.forall₂_cons_left_iff.1 h
    obtain ⟨k, k', rfl, hk, hk'⟩ := ih hrest
    exact ⟨b :: k, k', rfl, .cons hab hk, hk'⟩

/-! ## Pages as rows

Lines are built from the left and pages from the top, except for marks: a comma may be put behind
code that has a comment behind it already, and then the stroke that was put last is not the last one
of its row.  So rows hold the strokes up to hoisting only.
-/

namespace Page

variable {case : KeywordCase} {all es rest : List Stroke} {p q : Page} {rows : List Row}
  {s : Stroke} {t : Token} {ms : List Move}

/-- The lines of a page read as some rows.  They hold the strokes `es`, hoisted at most, and each
follows the one in front of it. -/
structure Reads (case : KeywordCase) (all : List Stroke) (p : Page) (es : List Stroke)
    (rows : List Row) : Prop where
  lines : List.Forall₂ (Line.Reads case) p.lines rows
  order : Hoisted Stroke.kind es ((cellsOf rows).map Cell.stroke)
  chain : (cellsOf rows).IsChain (Cell.Follows all)

namespace Reads

lemma of_lines (h : p.Reads case all es rows) (hq : q.lines = p.lines) :
    q.Reads case all es rows :=
  ⟨hq ▸ h.lines, h.order, h.chain⟩

lemma startLine (h : p.Reads case all es rows) (indent : Nat) :
    (p.startLine indent).Reads case all es (.empty :: rows) :=
  ⟨.cons (Line.reads_empty case indent) h.lines, by simpa using h.order, by simpa using h.chain⟩

/-- The last cell holds the last stroke, unless it is a line comment. -/
lemma getLast?_cells (h : p.Reads case all es rows) {a : Cell} (ha : a ∈ (cellsOf rows).getLast?) :
    a.stroke ∈ es.getLast? ∨ a.stroke.kind = .lineComment := by
  have hlast : ((cellsOf rows).map Cell.stroke).getLast? = some a.stroke := by
    rw [List.getLast?_map, ha]
    rfl
  exact h.order.getLast? hlast

/-- A cell behind the code of the last line, which is open. -/
lemma put (h : p.Reads case all es rows) {l m : Line} {ls : List Line} (hp : p.lines = l :: ls)
    (hq : q.lines = m :: ls) (hopen : l.note = none) {gap : Bool} (hm : Line.Puts case s gap l m)
    (hs : s.kind ≠ .lineComment)
    (hfollows : ∀ a ∈ (cellsOf rows).getLast?, a.Follows all ⟨gap || l.pieces.isEmpty, s⟩) :
    ∃ rows', q.Reads case all (es ++ [s]) rows' := by
  have hlines := h.lines
  rw [hp] at hlines
  obtain ⟨r, rows, hr, hrows, rfl⟩ := List.forall₂_cons_left_iff.1 hlines
  have hnote : r.note = none := by simpa [hopen] using hr.note.symm
  have hempty : l.pieces.isEmpty = r.code.isEmpty := by
    rw [Bool.eq_iff_iff, List.isEmpty_iff, List.isEmpty_iff, hr.bare]
  have hcells : cellsOf (⟨r.code ++ [⟨gap || r.code.isEmpty, s⟩], r.note⟩ :: rows) =
      cellsOf (r :: rows) ++ [⟨gap || r.code.isEmpty, s⟩] := by
    simp [Row.cells, Row.noteCells, hnote]
  refine ⟨⟨r.code ++ [⟨gap || r.code.isEmpty, s⟩], r.note⟩ :: rows, ?_, ?_, ?_⟩
  · rw [hq]
    exact .cons (hr.put hm hs) hrows
  · rw [hcells, List.map_append]
    exact h.order.append_right [s]
  · rw [hcells]
    refine h.chain.append (.singleton _) fun a ha b hb => ?_
    obtain rfl : _ = b := by simpa using hb
    exact hempty ▸ hfollows a ha

/-- Behind the code of a line that is open, there is no line comment. -/
lemma light_of_open (h : p.Reads case all es rows) {l : Line} {ls : List Line}
    (hp : p.lines = l :: ls) (hopen : l.isClosed = false) {a : Cell}
    (ha : a ∈ (cellsOf rows).getLast?) : a.stroke.kind ≠ .lineComment := by
  have hlines := h.lines
  rw [hp] at hlines
  obtain ⟨r, rows, hr, -, rfl⟩ := List.forall₂_cons_left_iff.1 hlines
  obtain ⟨hnote, hpieces⟩ : l.note = none ∧ l.pieces ≠ [] := by
    simpa [Line.isClosed] using hopen
  have hnone : r.note = none := by simpa [hnote] using hr.note.symm
  have hcode : r.code ≠ [] := fun hnil => hpieces (hr.bare.2 hnil)
  have hcells : cellsOf (r :: rows) = cellsOf rows ++ r.code := by
    simp [Row.cells, Row.noteCells, hnone]
  rw [hcells, List.getLast?_append_of_ne_nil _ hcode] at ha
  exact hr.light a (List.mem_of_getLast? ha)

/-- A cell at the start of a line. -/
lemma put_started (h : p.Reads case all es rows) {indent : Nat} {f : Line → Line} {gap : Bool}
    (hf : Line.Puts case s gap (.empty indent) (f (.empty indent)))
    (hs : s.kind ≠ .lineComment) (hparts : ∀ r ∈ es.getLast?, ¬ r.Clings all s) :
    ∃ rows', ((p.startLine indent).onLast f).Reads case all (es ++ [s]) rows' := by
  refine (h.startLine indent).put rfl rfl rfl hf hs fun a ha => ?_
  refine Cell.follows_of_not_clings (Bool.or_true _) fun hclings => ?_
  rcases (h.startLine indent).getLast?_cells ha with hlast | hcomment
  · exact hparts _ hlast hclings
  · exact hclings.light hcomment

/-- A line comment behind the code of the last line, which is open. -/
lemma annotate (h : p.Reads case all es rows) {l : Line} {ls : List Line} {c : Comment}
    (hp : p.lines = l :: ls) (hq : q.lines = l.comment c :: ls) (hopen : l.note = none)
    (hline : c.isLine = true) : ∃ rows', q.Reads case all (es ++ [.comment c]) rows' := by
  have hlines := h.lines
  rw [hp] at hlines
  obtain ⟨r, rows, hr, hrows, rfl⟩ := List.forall₂_cons_left_iff.1 hlines
  have hnote : r.note = none := by simpa [hopen] using hr.note.symm
  have hcells : cellsOf (⟨r.code, some c⟩ :: rows) =
      cellsOf (r :: rows) ++ [⟨true, .comment c⟩] := by
    simp [Row.cells, Row.noteCells, hnote]
  refine ⟨⟨r.code, some c⟩ :: rows, ?_, ?_, ?_⟩
  · rw [hq]
    exact .cons (hr.annotate hline) hrows
  · rw [hcells, List.map_append]
    exact h.order.append_right [.comment c]
  · rw [hcells]
    refine h.chain.append (.singleton _) fun a ha b hb => ?_
    obtain rfl : _ = b := by simpa using hb
    exact Cell.follows_of_not_clings rfl Stroke.not_clings_comment

/-- Lines without code hold line comments at most. -/
lemma notes_of_bare {lines : List Line} (h : List.Forall₂ (Line.Reads case) lines rows)
    (hbare : ∀ l ∈ lines, l.pieces = []) : ∀ a ∈ cellsOf rows, a.apart = true ∧
      ∃ c : Comment, a.stroke = .comment c ∧ c.token.kind = .lineComment := by
  intro a ha
  obtain ⟨r, hr, ha⟩ := List.mem_flatMap.1 ha
  obtain ⟨l, hl, hlr⟩ := exists_of_forall₂ h.flip (List.mem_reverse.1 hr)
  rw [Row.cells, hlr.bare.1 (hbare l hl), List.nil_append] at ha
  obtain ⟨c, hc, rfl⟩ := List.mem_map.1 ha
  exact ⟨rfl, c, rfl, hlr.heavy c (by simpa using hc)⟩

/-- A mark behind the code of a line that has only line comments behind it.  The cells of these
comments stand apart and are passed by the mark, which is what hoisting allows; in front of it
nothing changes. -/
lemma attach (h : p.Reads case all es rows) {behind ls : List Line} {l m : Line}
    (hp : p.lines = behind ++ l :: ls) (hq : q.lines = behind ++ m :: ls)
    (hm : Line.Puts case s false l m) (hbare : ∀ b ∈ behind, b.pieces = [])
    (hs : s.kind.movesUp = true) : ∃ rows', q.Reads case all (es ++ [s]) rows' := by
  have hlines := h.lines
  rw [hp] at hlines
  obtain ⟨rowsBehind, back, rfl, hbehind, hback⟩ := exists_append_of_forall₂ hlines
  obtain ⟨r, rows, hr, hrows, rfl⟩ := List.forall₂_cons_left_iff.1 hback
  have hlight : s.kind ≠ .lineComment := by
    intro hk
    simp [hk, Kind.movesUp] at hs
  -- the cells split into those in front of the mark and line comments behind it
  generalize hc : (⟨false || r.code.isEmpty, s⟩ : Cell) = c
  have hcs : c.stroke = s := by rw [← hc]
  generalize hX : cellsOf rows ++ r.code = X
  generalize hN : r.noteCells ++ cellsOf rowsBehind = N
  have hold : cellsOf (rowsBehind ++ r :: rows) = X ++ N := by
    simp [← hX, ← hN, Row.cells]
  have hnew : cellsOf (rowsBehind ++ ⟨r.code ++ [c], r.note⟩ :: rows) = X ++ c :: N := by
    simp [← hX, ← hN, Row.cells, Row.noteCells]
  have hnotes : ∀ a ∈ N, a.apart = true ∧ ∃ d : Comment, a.stroke = .comment d ∧
      d.token.kind = .lineComment := by
    intro a ha
    rw [← hN, List.mem_append] at ha
    rcases ha with ha | ha
    · obtain ⟨d, hd, rfl⟩ := List.mem_map.1 ha
      exact ⟨rfl, d, rfl, hr.heavy d (by simpa using hd)⟩
    · exact notes_of_bare hbehind hbare a ha
  have horder := h.order
  have hchain := h.chain
  rw [hold] at horder hchain
  refine ⟨rowsBehind ++ ⟨r.code ++ [c], r.note⟩ :: rows, ?_, ?_, ?_⟩
  · rw [hq, ← hc]
    exact List.rel_append hbehind (.cons (hr.put hm hlight) hrows)
  · have hput : Hoisted Stroke.kind (es ++ [s])
        (X.map Cell.stroke ++ (N.map Cell.stroke ++ s :: [])) := by
      simpa using horder.append_right [s]
    have hpast := hput.past (fun d hd => by
      obtain ⟨a, ha, rfl⟩ := List.mem_map.1 hd
      obtain ⟨-, d, hd, hkind⟩ := hnotes a ha
      rw [hd]
      exact hkind) hs
    rw [hnew]
    simpa [hcs] using hpast
  · rw [hnew]
    refine hchain.left_of_append.append (hchain.right_of_append.cons fun b hb => ?_) ?_
    · obtain ⟨hapart, d, hd, -⟩ := hnotes b (List.mem_of_mem_head? hb)
      exact Cell.follows_of_not_clings hapart (hd ▸ Stroke.not_clings_comment)
    · intro a _ b hb
      obtain rfl : c = b := by simpa using hb
      exact ⟨fun _ => .inl (hcs ▸ hs), fun _ => hcs ▸ Stroke.not_clings_of_movesUp hs⟩

end Reads

/-- Where the next stroke goes, in front of the strokes `rest`: a line may be broken where it is to
be, the last line remembers the last stroke while it is open, and it is open unless something was
put aside. -/
structure Tip (p : Page) (es rest : List Stroke) : Prop where
  fresh : p.fresh.isSome = true → AllowsBetween es rest
  trace : ∀ l ls, p.lines = l :: ls → l.isClosed = false →
    ∃ es' s τ, es = es' ++ [s] ∧ l.last = some τ ∧ s.Traces es' τ
  isOpen : p.fresh = none → ∀ s ∈ es.getLast?, s.isAside = false →
    (s.kind.movesUp = true → Stroke.Free es) → ∃ l ls, p.lines = l :: ls ∧ l.isClosed = false
  blank : es = [] → p.lines = []

/-- A page behind the strokes `es` and in front of the strokes `rest`. -/
structure Laid (case : KeywordCase) (all : List Stroke) (p : Page) (es rest : List Stroke) :
    Prop where
  split : all = es ++ rest
  reads : ∃ rows, p.Reads case all es rows
  tip : p.Tip es rest

namespace Tip

/-- Where a line is started, it may be. -/
lemma starts (h : p.Tip es (s :: rest))
    (hstart : p.fresh.isSome = true ∨ ∀ l ∈ p.lines.head?, l.isClosed = true) : s.Starts es := by
  intro r hr
  rcases hfresh : p.fresh with _ | indent
  · have hclosed : ∀ l ∈ p.lines.head?, l.isClosed = true := by simpa [hfresh] using hstart
    by_cases haside : r.isAside = true
    · exact .inl (Stroke.allowsBehind_of_isAside haside)
    · refine .inr (.inr ?_)
      by_contra hmoves
      obtain ⟨l, ls, hl, hopen⟩ := h.isOpen hfresh r hr (by simpa using haside) (by tauto)
      simp [hclosed l (by simp [hl])] at hopen
  · rcases h.fresh (by simp [hfresh]) r hr s rfl with hbehind | hbefore
    · exact .inl hbehind
    · exact .inr (.inl hbefore)

/-- A line that was left open behind a stroke. -/
lemma of_open {l : Line} {ls : List Line} {τ : Trace} (hfresh : p.fresh = none)
    (hl : p.lines = l :: ls) (hopen : l.isClosed = false) (hlast : l.last = some τ)
    (hs : s.Traces es τ) : p.Tip (es ++ [s]) rest := by
  refine ⟨by simp [hfresh], fun k ks hk _ => ?_, fun _ _ _ _ _ => ⟨l, ls, hl, hopen⟩, by simp⟩
  obtain ⟨rfl, rfl⟩ := List.cons.inj (hl.symm.trans hk)
  exact ⟨es, s, τ, rfl, hlast, hs⟩

/-- A line that was closed by a comment. -/
lemma of_closed {l : Line} {ls : List Line} {c : Comment} (hfresh : p.fresh = none)
    (hl : p.lines = l :: ls) (hclosed : l.isClosed = true) :
    p.Tip (es ++ [.comment c]) rest := by
  refine ⟨by simp [hfresh], fun k ks hk hopen => ?_, fun _ s hs haside _ => ?_, by simp⟩
  · obtain ⟨rfl, rfl⟩ := List.cons.inj (hl.symm.trans hk)
    rw [hclosed] at hopen
    cases hopen
  · obtain rfl : .comment c = s := by simpa using hs
    cases haside

end Tip

/-- A page is made ready by starting a line or by leaving it as it is. -/
lemma ready_eq (p : Page) :
    (∃ indent, p.ready = p.startLine indent ∧
      (p.fresh.isSome = true ∨ ∀ l ∈ p.lines.head?, l.isClosed = true)) ∨
    p.ready = p ∧ p.fresh = none ∧ ∃ l ls, p.lines = l :: ls ∧ l.isClosed = false := by
  unfold ready
  split
  · rename_i indent hfresh
    exact .inl ⟨indent, rfl, .inl (by simp [hfresh])⟩
  · rename_i hfresh hlines
    exact .inl ⟨p.continuation, rfl, .inr (by simp [hlines])⟩
  · rename_i l ls hfresh hlines
    split
    · rename_i hclosed
      exact .inl ⟨p.continuation, rfl, .inr (by simpa [hlines] using hclosed)⟩
    · rename_i hopen
      exact .inr ⟨rfl, hfresh, l, ls, hlines, by simpa using hopen⟩

namespace Laid

lemma empty (case : KeywordCase) (all : List Stroke) : Page.empty.Laid case all [] all :=
  ⟨rfl, ⟨[], .nil, .refl [], .nil⟩, ⟨by simp [Page.empty], by simp [Page.empty], by simp,
    fun _ => rfl⟩⟩

lemma breakAt (h : p.Laid case all es rest) (indent : Nat) (hbreak : AllowsBetween es rest) :
    (p.breakAt indent).Laid case all es rest := by
  obtain ⟨hall, ⟨rows, hrows⟩, htip⟩ := h
  exact ⟨hall, ⟨rows, hrows.of_lines rfl⟩, ⟨fun _ => hbreak, htip.trace, nofun, htip.blank⟩⟩

lemma continueAt (h : p.Laid case all es rest) (indent : Nat) :
    (p.continueAt indent).Laid case all es rest := by
  obtain ⟨hall, ⟨rows, hrows⟩, htip⟩ := h
  exact ⟨hall, ⟨rows, hrows.of_lines rfl⟩, ⟨htip.fresh, htip.trace, htip.isOpen, htip.blank⟩⟩

lemma separate (h : p.Laid case all es rest) (haside : EndsAside es) :
    p.separate.Laid case all es rest := by
  obtain ⟨hall, ⟨rows, hrows⟩, htip⟩ := h
  obtain ⟨r, hr, hraside⟩ := haside
  refine ⟨hall, ⟨_, hrows.startLine 0⟩, by simp [Page.separate, startLine], fun l ls hl hopen => ?_,
    fun _ s hs hcode _ => ?_, fun hnil => by simp [hnil] at hr⟩
  · obtain ⟨rfl, rfl⟩ := List.cons.inj hl
    cases hopen
  · obtain rfl : r = s := Option.some.inj (hr.symm.trans hs)
    rw [hraside] at hcode
    cases hcode

/-- A token is written where the page stands.  On a line that is started nothing clings to what is
in front; on an open line the last trace decides on the space, and the same trace is what the rule
for touching tokens asks about. -/
lemma write (h : p.Laid case all es (.write t :: rest)) (ht : (Stroke.write t).Proper) :
    (p.write case t).Laid case all (es ++ [.write t]) rest := by
  obtain ⟨hall, ⟨rows, hrows⟩, htip⟩ := h
  have hlight : (Stroke.write t).kind ≠ .lineComment := by
    intro hk
    have hcomment : t.isComment = false := ht
    have hkind : t.kind = .lineComment := hk
    simp [Token.isComment, hkind] at hcomment
  have hsign : ∀ before, isUnary before t = true → (Stroke.write t).isSign = true := by
    intro before hunary
    simp only [isUnary, Bool.and_eq_true] at hunary
    exact Bool.and_eq_true _ _ ▸ hunary.1
  have hall' : all = (es ++ [.write t]) ++ rest := by simpa using hall
  unfold Page.write
  rcases p.ready_eq with ⟨indent, hready, hstart⟩ | ⟨hready, hfresh, l, ls, hl, hopen⟩
  · have hstarts := htip.starts hstart
    rw [hready]
    exact ⟨hall', hrows.put_started (Line.puts_write ht fun _ => rfl) hlight fun r hr =>
      Stroke.not_clings_of_starts hstarts hr hall, .of_open rfl rfl (by simp [Line.isClosed,
        Line.write, Line.empty]) rfl (.inl ⟨_, fun hunary => ⟨hsign _ hunary, .inl hstarts⟩, rfl⟩)⟩
  · obtain ⟨es', r, τ, rfl, hlast, htraces⟩ := htip.trace l ls hl hopen
    have hsplit : all = es' ++ r :: .write t :: rest := by simpa using hall
    have hclosed := hopen
    obtain ⟨hnote, hpieces⟩ : l.note = none ∧ l.pieces ≠ [] := by
      simpa [Line.isClosed] using hopen
    have hlines : (p.onLast (·.write case t)).lines = l.write case t :: ls := by
      simp [Page.onLast, hl]
    have hgap : (l.last.any (needsSpace · t) || l.pieces.isEmpty) = needsSpace τ t := by
      simp [hlast, hpieces]
    rw [hready]
    refine ⟨hall', hrows.put hl hlines hnote (Line.puts_write ht fun h => absurd h hpieces) hlight
      fun a ha => ?_, .of_open (by simp [Page.onLast, hl, hfresh]) hlines (by simp [Line.isClosed,
        Line.write, hnote]) rfl (.inl ⟨_, fun hunary => ⟨hsign _ hunary, .inr fun q hq u hu => ?_⟩,
        rfl⟩)⟩
    · obtain rfl : r = a.stroke := by
        simpa using (hrows.getLast?_cells ha).resolve_right (hrows.light_of_open hl hclosed ha)
      rw [hgap]
      refine ⟨fun hmeets => .inr (.inr ⟨t, es', rest, τ, rfl, hsplit, htraces, hmeets⟩),
        fun hspace hclings => ?_⟩
      obtain ⟨u, hu, hwritten⟩ := hclings.written
      obtain rfl := Stroke.write.inj hu
      rcases htraces with ⟨unary, hsignals, rfl⟩ | ⟨hmoves, hfree, -⟩
      · rw [hwritten unary fun h => (hsignals h).1] at hspace
        cases hspace
      · exact hfree (Stroke.Free.of_append (hsplit ▸ hclings.free hmoves))
    · obtain rfl : r = q := by simpa using hq
      obtain rfl := Stroke.write.inj hu
      have hsame : isUnary (some τ) t = isUnary (some (.remark r.kind)) t :=
        isUnary_congr (by simp [htraces.kind, Trace.remark]) rfl fun _ => rfl
      rwa [hlast, hsame] at hunary

/-- A stroke that may follow anything, put on a line that is open or started for it.  What it
follows decides nothing here; this is what glued tokens, marks that find no code, and block comments
have in common. -/
lemma onLast (h : p.Laid case all es (s :: rest)) (gap : Line → Bool) {f : Line → Line}
    {τ : Trace}
    (hf : ∀ l : Line, Line.Puts case s (gap l) l (f l)) (hlast : ∀ l : Line, (f l).last = some τ)
    (htraces : s.Traces es τ) (hs : s.kind ≠ .lineComment)
    (hclings : ∀ r : Stroke, ¬ r.Clings all s)
    (hmeets : ∀ l : Line, (gap l || l.pieces.isEmpty) = false → ∀ r : Stroke, r.Meets all s)
    {q : Page} (hq : q = p.ready ∨ ∃ indent, q = p.startLine indent) :
    (q.onLast f).Laid case all (es ++ [s]) rest := by
  obtain ⟨hall, ⟨rows, hrows⟩, htip⟩ := h
  have hall' : all = (es ++ [s]) ++ rest := by simpa using hall
  have hopen : ∀ l : Line, l.note = none → (f l).isClosed = false := fun l hl => by
    simp [Line.isClosed, (hf l).note, (hf l).pieces, hl]
  have hstarted : ∀ indent, ((p.startLine indent).onLast f).Laid case all (es ++ [s]) rest :=
    fun indent => ⟨hall', hrows.put_started (hf _) hs fun r _ => hclings r,
      .of_open rfl rfl (hopen _ rfl) (hlast _) htraces⟩
  rcases hq with rfl | ⟨indent, rfl⟩
  · rcases p.ready_eq with ⟨indent, hready, -⟩ | ⟨hready, hfresh, l, ls, hl, hlopen⟩
    · rw [hready]
      exact hstarted indent
    · obtain ⟨hnote, -⟩ : l.note = none ∧ l.pieces ≠ [] := by simpa [Line.isClosed] using hlopen
      have hlines : (p.onLast f).lines = f l :: ls := by simp [Page.onLast, hl]
      rw [hready]
      exact ⟨hall', hrows.put hl hlines hnote (hf l) hs fun a _ =>
          ⟨fun hgap => hmeets l hgap _, fun _ => hclings _⟩,
        .of_open (by simp [Page.onLast, hl, hfresh]) hlines (hopen l hnote) (hlast l) htraces⟩
  · exact hstarted indent

lemma glue (h : p.Laid case all es (.glue t :: rest)) (ht : (Stroke.glue t).Proper) :
    (p.glue t).Laid case all (es ++ [.glue t]) rest := by
  refine h.onLast (fun _ => false) (fun l => Line.puts_glue ht) (fun l => rfl)
    (.inl ⟨false, nofun, rfl⟩) ?_ (fun r => Stroke.not_clings_glue)
    (fun _ _ r => .inr (.inl ⟨t, rfl⟩)) (.inl rfl)
  have hkind : t.kind = .openParen ∨ t.kind = .closeParen := ht
  rcases hkind with hk | hk <;> simp [Stroke.kind, hk]

/-- A line comment closes the line that it is put on. -/
lemma annotate {c : Comment} (h : p.Laid case all es (.comment c :: rest)) (hline : c.isLine = true)
    {q : Page} (hq : q = p.ready ∨ ∃ indent, q = p.startLine indent) :
    (q.onLast (·.comment c)).Laid case all (es ++ [.comment c]) rest := by
  obtain ⟨hall, ⟨rows, hrows⟩, htip⟩ := h
  have hall' : all = (es ++ [.comment c]) ++ rest := by simpa using hall
  have hclosed : ∀ l : Line, (l.comment c).isClosed = true := fun l => by
    simp [Line.comment, hline, Line.isClosed, Line.annotate]
  have hstarted : ∀ indent, ((p.startLine indent).onLast (·.comment c)).Laid case all
      (es ++ [.comment c]) rest := fun indent =>
    ⟨hall', (hrows.startLine indent).annotate rfl rfl rfl hline, .of_closed rfl rfl (hclosed _)⟩
  rcases hq with rfl | ⟨indent, rfl⟩
  · rcases p.ready_eq with ⟨indent, hready, -⟩ | ⟨hready, hfresh, l, ls, hl, hopen⟩
    · rw [hready]
      exact hstarted indent
    · obtain ⟨hnote, -⟩ : l.note = none ∧ l.pieces ≠ [] := by simpa [Line.isClosed] using hopen
      have hlines : (p.onLast (·.comment c)).lines = l.comment c :: ls := by simp [Page.onLast, hl]
      rw [hready]
      exact ⟨hall', hrows.annotate hl hlines hnote hline,
        .of_closed (by simp [Page.onLast, hl, hfresh]) hlines (hclosed l)⟩
  · exact hstarted indent

/-- A mark, or a token that moves up, is put behind the last code.  If there is such code, the line
comments behind it are hoisted over; if there is none, the mark goes on a line of its own like any
other stroke. -/
lemma attach (h : p.Laid case all es (s :: rest)) (hs : s.kind.movesUp = true)
    (hmoved : s.isMark = true ∨ p.fresh = none ∧ ¬ Stroke.Free es) :
    (p.attach s.kind s.text).Laid case all (es ++ [s]) rest := by
  have hlight : s.kind ≠ .lineComment := by
    intro hk
    simp [hk, Kind.movesUp] at hs
  have htraces : s.Traces es (.mark s.kind s.text) := by
    rcases hmoved with hmark | ⟨-, hfree⟩
    · cases s with
      | mark kind text => exact .inl ⟨false, nofun, rfl⟩
      | write t => cases hmark
      | glue t => cases hmark
      | comment c => cases hmark
    · exact .inr ⟨hs, hfree, rfl⟩
  unfold Page.attach
  split
  · rename_i changed hchanged
    obtain ⟨hall, ⟨rows, hrows⟩, htip⟩ := h
    obtain ⟨behind, l, ls, hlines, rfl, hbare⟩ := exists_of_onLastCode? hchanged
    refine ⟨by simpa using hall, hrows.attach hlines rfl (Line.puts_attach hs) hbare hs,
      ⟨fun hfresh r hr _ _ => ?_, fun k ks hk hopen => ?_, fun hfresh r hr hcode hfree => ?_,
        by simp⟩⟩
    · obtain rfl : s = r := by simpa using hr
      rcases hmoved with hmark | ⟨hnone, -⟩
      · cases s <;> simp_all [Stroke.isMark, Stroke.allowsBehind]
      · simp [hnone] at hfresh
    · refine ⟨es, s, _, rfl, ?_, htraces⟩
      rcases behind with _ | ⟨b, behind⟩
      · obtain ⟨rfl, -⟩ := List.cons.inj hk
        rfl
      · obtain ⟨rfl, -⟩ := List.cons.inj hk
        simp [Line.isClosed, hbare b (List.mem_cons_self ..)] at hopen
    · obtain rfl : s = r := by simpa using hr
      rcases hmoved with hmark | ⟨-, hnotFree⟩
      · cases s <;> simp_all [Stroke.isMark, Stroke.isAside]
      · exact absurd (Stroke.Free.of_append (hfree hs)) hnotFree
  · exact h.onLast (fun _ => false) (fun l => Line.puts_attach hs) (fun l => rfl) htraces hlight
      (fun r => Stroke.not_clings_of_movesUp hs) (fun _ _ r => .inl hs) (.inl rfl)

/-- A comma, a closing parenthesis or a semicolon is put where the page is steady. -/
lemma punctuate (h : p.Laid case all es (.write t :: rest)) (ht : (Stroke.write t).Proper)
    (hmoves : t.kind.movesUp = true) (hsteady : p.Steady es) :
    (p.punctuate case t).Laid case all (es ++ [.write t]) rest := by
  unfold Page.punctuate
  split
  · rename_i hclosed
    rw [Bool.and_eq_true, Option.isNone_iff_eq_none] at hclosed
    obtain ⟨hfresh, hclosed⟩ := hclosed
    refine h.attach hmoves (.inr ⟨hfresh, fun hfree => ?_⟩)
    -- without comments, only a mark puts something on a page whose last line is closed
    rcases List.eq_nil_or_concat es with rfl | ⟨front, r, rfl⟩
    · simp [h.tip.blank rfl] at hclosed
    · have hends : EndsSteady (front ++ [r]) := by simpa [hfresh, Page.Steady] using hsteady
      have hmark : r.isMark = false := hends r (by simp)
      have haside : r.isAside = false := by
        cases r with
        | comment c => exact absurd (by simp) (hfree c)
        | mark kind text => cases hmark
        | write t => rfl
        | glue t => rfl
      obtain ⟨l, ls, hl, hopen⟩ := h.tip.isOpen hfresh r (by simp) haside fun _ => hfree
      simp [hl, hopen] at hclosed
  · exact h.write ht

/-- A comment is put on the last line or on a line of its own. -/
lemma comment {c : Comment} (h : p.Laid case all es (.comment c :: rest))
    (hc : (Stroke.comment c).Proper) : (p.comment c).Laid case all (es ++ [.comment c]) rest := by
  have hput : ∀ q : Page, (q = p.ready ∨ ∃ indent, q = p.startLine indent) →
      (q.onLast (·.comment c)).Laid case all (es ++ [.comment c]) rest := by
    intro q hq
    cases hline : c.isLine with
    | true => exact h.annotate hline hq
    | false =>
      refine h.onLast (!·.pieces.isEmpty) (fun l => Line.puts_remark hc hline)
        (fun l => by simp [Line.comment, hline, Line.remark]; rfl) (.inl ⟨false, nofun, rfl⟩) ?_
        (fun r => Stroke.not_clings_comment) (fun l hgap => ?_) hq
      · simpa [Comment.isLine, Stroke.kind] using hline
      · simp at hgap
  unfold Page.comment
  split
  · exact hput _ (.inr ⟨_, rfl⟩)
  · exact hput _ (.inl rfl)

/-- **One stroke** on a page, of any sort, keeps the invariant.  A comma, a closing parenthesis or a
semicolon that is written may move up, and for it the page has to be steady. -/
lemma put (h : p.Laid case all es (s :: rest)) (hs : s.Proper)
    (hsteady : ∀ t, s = .write t → t.kind.movesUp = true → p.Steady es) :
    (p.put case s).Laid case all (es ++ [s]) rest := by
  cases s with
  | write t =>
    simp only [Page.put]
    split
    · rename_i hmoves
      exact h.punctuate hs hmoves (hsteady t rfl hmoves)
    · exact h.write hs
  | glue t => exact h.glue hs
  | mark kind text => exact h.attach hs (.inl rfl)
  | comment c => exact h.comment hs

/-- **A lawful run** on a page keeps the invariant, by induction over its moves: a stroke is put, or
a line is asked for where one may be broken. -/
lemma run (h : p.Laid case all es (strokesOf ms ++ rest)) (hms : Lawful case p es ms rest)
    (hproper : ∀ s ∈ strokesOf ms, s.Proper) :
    (p.run case ms).Laid case all (es ++ strokesOf ms) rest := by
  induction ms generalizing p es with
  | nil => simpa [Page.run, strokesOf] using h
  | cons m ms ih =>
    obtain ⟨hm, hms⟩ := hms
    cases m with
    | put s =>
      rw [strokesOf_put, List.cons_append] at h
      have hput := h.put (hproper s (by simp)) hm
      have hrun := ih hput hms fun r hr => hproper r (by simp [hr])
      rwa [List.append_assoc] at hrun
    | breakAt indent =>
      rw [show es ++ strokesOf [.breakAt indent] = es from List.append_nil es] at hms
      exact ih (h.breakAt indent hm) hms hproper
    | continueAt indent =>
      rw [show es ++ strokesOf [.continueAt indent] = es from List.append_nil es] at hms
      exact ih (h.continueAt indent) hms hproper
    | separate =>
      rw [show es ++ strokesOf [.separate] = es from List.append_nil es] at hms
      exact ih (h.separate hm) hms hproper

end Laid

end Page

end SqlInlay.Sql
