import SqlInlay.Proofs.Sql.KeywordCase
import SqlInlay.Proofs.Sql.Rows

/-!
# How a layout is set

The text of a layout is a row of slots, each a stroke and the blanks in front of it.  The rows of a
page become slots when the ends of lines are counted as blanks of what comes next: `slotsOf` does
so, and the empty lines between statements go the same way.

**From rows to slots.**  `exists_text_slotsOf` says that the slots make up the text of the lines,
`forall₂_slotsOf` that they show the cells of the rows, and `feeds_slotsOf` that a line feed stands
behind each line comment.

**Settings.**  `Sets` collects what there is to say of a layout before it is read again: its slots
hold the tokens of the query, hoisted at most; a slot without blanks meets the one in front of it,
one with blanks does not cling to it, and behind a line comment a line feed comes first.
`exists_sets_of_parse` shows it of every query that parses.  It puts together how segmentation
divides (`divide_segment`), that printing is a lawful run (`Script.charted_layOut`) and what a
lawful run leaves on a page (`Page.Laid.run`).
-/

namespace SqlInlay.Sql

open SqlInlay.Text

/-! ## Slots -/

/-- A stroke and the blanks in front of it. -/
structure Slot where
  space : Text
  stroke : Stroke
deriving DecidableEq, Repr

namespace Slot

/-- The slot as text. -/
def text (case : KeywordCase) (a : Slot) : Text := a.space ++ a.stroke.shown case

/-- The slot of a cell that does not start its line. -/
def ofCell (a : Cell) : Slot := ⟨if a.apart then [' '] else [], a.stroke⟩

/-- A slot shows a cell: the same stroke, with blanks in front or without. -/
structure Shows (a : Slot) (b : Cell) : Prop where
  stroke : a.stroke = b.stroke
  space : a.space = [] ↔ b.apart = false
  blank : ∀ c ∈ a.space, c = ' ' ∨ c = '\n'

/-- One slot may stand behind another. -/
structure Follows (all : List Stroke) (a b : Slot) : Prop where
  meets : b.space = [] → a.stroke.Meets all b.stroke
  parts : b.space ≠ [] → ¬ a.stroke.Clings all b.stroke
  note : a.stroke.kind = .lineComment → ∃ rest, b.space = '\n' :: rest

lemma shows_ofCell (a : Cell) : (ofCell a).Shows a := by
  refine ⟨rfl, ?_, ?_⟩ <;> cases h : a.apart <;> simp [ofCell, h]

end Slot

/-! ## From rows to slots -/

/-- The slots of the cells of one line; `lead` is what stands in front of the line. -/
def lineSlots (lead : Text) (indent : Nat) : List Cell → List Slot
  | [] => []
  | a :: as => ⟨lead ++ '\n' :: fill indent ' ', a.stroke⟩ :: as.map .ofCell

/-- The slots of some lines from above, with the rows that they read as; `lead` is what stands in
front of them. -/
def slotsOf (lead : Text) : List (Line × Row) → List Slot
  | [] => []
  | (l, r) :: rows =>
    if r.cells = [] then slotsOf (lead ++ ['\n']) rows
    else lineSlots lead l.indent r.cells ++ slotsOf [] rows

section Rows

variable {case : KeywordCase} {l : Line} {r : Row} {lead : Text} {rows : List (Line × Row)}

/-- A line without cells is empty. -/
lemma Line.Reads.render_nil (h : l.Reads case r) (hcells : r.cells = []) : l.render = [] := by
  obtain ⟨hcode, hnotes⟩ := List.append_eq_nil_iff.1 hcells
  have hnote : r.note = none := by
    cases hr : r.note with
    | none => rfl
    | some c => simp [Row.noteCells, hr] at hnotes
  simp [Line.render, h.bare.2 hcode, h.note, hnote]

/-- A line as the cells of its row: the first one stands at the indentation. -/
lemma Line.Reads.render_cons (h : l.Reads case r) {a : Cell} {as : List Cell}
    (hcells : r.cells = a :: as) :
    l.render = fill l.indent ' ' ++ (a.stroke.shown case ++ as.flatMap (Cell.text case)) ∧
      a.apart = true := by
  have hshown : ∀ c ∈ r.note, (Stroke.comment c).shown case = trimEnd c.token.text := by
    intro c hc
    simp [Stroke.shown, Stroke.kind, Stroke.text, written, h.heavy c hc]
  rcases hcode : r.code with _ | ⟨b, bs⟩
  · have hpieces := h.bare.2 hcode
    rw [Row.cells, hcode, List.nil_append] at hcells
    cases hnote : r.note with
    | none => simp [Row.noteCells, hnote] at hcells
    | some c =>
      obtain ⟨rfl, rfl⟩ : ⟨true, .comment c⟩ = a ∧ as = [] := by
        simpa [Row.noteCells, hnote] using hcells
      simp [Line.render, Line.code, hpieces, h.note, hnote, hshown c hnote]
  · have hpieces : l.pieces ≠ [] := fun hnil => by simp [h.bare.1 hnil] at hcode
    have hapart := h.apart b (by simp [hcode])
    have htext := h.text (by simp [hcode])
    rw [Row.cells, hcode, List.cons_append] at hcells
    obtain ⟨rfl, rfl⟩ := List.cons.inj hcells
    rw [hcode] at htext
    have hlcode : l.code = b.stroke.shown case ++ bs.flatMap (Cell.text case) := by
      simpa [Cell.text, hapart] using htext
    refine ⟨?_, hapart⟩
    cases hnote : r.note with
    | none => simp [Line.render, hpieces, h.note, hnote, hlcode, Row.noteCells]
    | some c =>
      simp [Line.render, hpieces, h.note, hnote, hlcode, Row.noteCells, Cell.text,
        hshown c hnote]

lemma flatMap_text_lineSlots (h : l.Reads case r) (hcells : r.cells ≠ []) (lead : Text) :
    (lineSlots lead l.indent r.cells).flatMap (Slot.text case) = lead ++ '\n' :: l.render := by
  obtain ⟨a, as, has⟩ := List.exists_cons_of_ne_nil hcells
  have hmap : (as.map Slot.ofCell).flatMap (Slot.text case) = as.flatMap (Cell.text case) := by
    rw [List.flatMap_map]
    rfl
  rw [has, lineSlots, List.flatMap_cons, hmap, (h.render_cons has).1]
  simp [Slot.text]

/-- The slots make up the lines, each with a line feed in front, up to line feeds at the end. -/
lemma exists_text_slotsOf (h : ∀ x ∈ rows, x.1.Reads case x.2) (hlead : ∀ c ∈ lead, c = '\n') :
    ∃ tail, lead ++ rows.flatMap ('\n' :: ·.1.render) =
      (slotsOf lead rows).flatMap (Slot.text case) ++ tail ∧ ∀ c ∈ tail, c = '\n' := by
  induction rows generalizing lead with
  | nil => exact ⟨lead, by simp [slotsOf], hlead⟩
  | cons x rows ih =>
    obtain ⟨l, r⟩ := x
    obtain ⟨hlr, hrows⟩ := List.forall_mem_cons.1 h
    simp only [slotsOf]
    split
    · rename_i hcells
      have hlead' : ∀ c ∈ lead ++ ['\n'], c = '\n' := List.forall_mem_append.2 ⟨hlead, by simp⟩
      obtain ⟨tail, htail, hfeeds⟩ := ih hrows hlead'
      refine ⟨tail, ?_, hfeeds⟩
      rw [← htail]
      simp [hlr.render_nil hcells]
    · rename_i hcells
      obtain ⟨tail, htail, hfeeds⟩ := ih hrows (List.forall_mem_nil (· = '\n'))
      refine ⟨tail, ?_, hfeeds⟩
      rw [List.flatMap_append, flatMap_text_lineSlots hlr hcells, List.append_assoc, ← htail]
      simp

/-- The slots show the cells. -/
lemma forall₂_slotsOf (h : ∀ x ∈ rows, x.1.Reads case x.2) (hlead : ∀ c ∈ lead, c = '\n') :
    List.Forall₂ Slot.Shows (slotsOf lead rows) (rows.flatMap (·.2.cells)) := by
  induction rows generalizing lead with
  | nil => exact .nil
  | cons x rows ih =>
    obtain ⟨l, r⟩ := x
    obtain ⟨hlr, hrows⟩ := List.forall_mem_cons.1 h
    simp only [slotsOf, List.flatMap_cons]
    split
    · rename_i hcells
      rw [hcells, List.nil_append]
      exact ih hrows (List.forall_mem_append.2 ⟨hlead, by simp⟩)
    · rename_i hcells
      refine List.rel_append ?_ (ih hrows (by simp))
      obtain ⟨a, as, has⟩ := List.exists_cons_of_ne_nil hcells
      rw [has, lineSlots]
      refine .cons ⟨rfl, by simp [(hlr.render_cons has).2], fun c hc => ?_⟩
        (List.forall₂_map_left_iff.2 (List.forall₂_same.2 fun b _ => Slot.shows_ofCell b))
      rcases List.mem_append.1 hc with hc | hc
      · exact .inr (hlead c hc)
      · rcases List.mem_cons.1 hc with rfl | hc
        · exact .inr rfl
        · exact .inl (List.eq_of_mem_replicate hc)

/-- Only the last cell of a row is a line comment. -/
lemma Line.Reads.light_of_cells (h : l.Reads case r) {front back : List Cell} {a b : Cell}
    (hcells : r.cells = front ++ a :: b :: back) : a.stroke.kind ≠ .lineComment := by
  have hdrop : a ∈ r.cells.dropLast := by simp [hcells]
  refine h.light a ?_
  cases hnote : r.note with
  | none =>
    rw [Row.cells, Row.noteCells, hnote] at hdrop
    exact (List.dropLast_sublist _).subset (by simpa using hdrop)
  | some c => simpa [Row.cells, Row.noteCells, hnote] using hdrop

/-- A slot behind a line comment begins with a line feed. -/
def Slot.Feeds (a b : Slot) : Prop :=
  a.stroke.kind = .lineComment → ∃ rest, b.space = '\n' :: rest

lemma strokes_lineSlots (lead : Text) (indent : Nat) (cells : List Cell) :
    (lineSlots lead indent cells).map Slot.stroke = cells.map Cell.stroke := by
  cases cells with
  | nil => rfl
  | cons a as => simp [lineSlots, Slot.ofCell]

/-- The first slot begins with a line feed, and so does each behind a line comment.  A line comment
is the last cell of its row, so what stands behind it is the first of another row. -/
lemma feeds_slotsOf (h : ∀ x ∈ rows, x.1.Reads case x.2) (hlead : ∀ c ∈ lead, c = '\n') :
    (∀ b ∈ (slotsOf lead rows).head?, ∃ rest, b.space = '\n' :: rest) ∧
      (slotsOf lead rows).IsChain Slot.Feeds := by
  induction rows generalizing lead with
  | nil => exact ⟨by simp [slotsOf], .nil⟩
  | cons x rows ih =>
    obtain ⟨l, r⟩ := x
    obtain ⟨hlr, hrows⟩ := List.forall_mem_cons.1 h
    simp only [slotsOf]
    split
    · exact ih hrows (List.forall_mem_append.2 ⟨hlead, by simp⟩)
    · rename_i hcells
      obtain ⟨a, as, has⟩ := List.exists_cons_of_ne_nil hcells
      obtain ⟨hhead, hchain⟩ := ih hrows (List.forall_mem_nil (· = '\n'))
      constructor
      · intro b hb
        rw [has, lineSlots] at hb
        obtain rfl : _ = b := by simpa using hb
        rcases lead with _ | ⟨c, lead⟩
        · exact ⟨_, rfl⟩
        · obtain rfl := hlead c (List.mem_cons_self ..)
          exact ⟨_, rfl⟩
      · refine List.IsChain.append ?_ hchain fun _ _ b hb _ => hhead b hb
        refine List.isChain_iff_forall_rel_of_append_cons_cons.2 ?_
        intro x y front back hsplit hx
        have hstrokes := strokes_lineSlots lead l.indent r.cells
        rw [hsplit, List.map_append, List.map_cons, List.map_cons] at hstrokes
        obtain ⟨front', rest, hrest, -, htail⟩ := List.map_eq_append_iff.1 hstrokes.symm
        obtain ⟨u, rest, rfl, hu, htail⟩ := List.map_eq_cons_iff.1 htail
        obtain ⟨v, rest, rfl, -, -⟩ := List.map_eq_cons_iff.1 htail
        exact absurd (hu ▸ hx) (hlr.light_of_cells hrest)

end Rows

/-! ## Settings -/

/-- A text is set in slots.  They hold the strokes `all`, hoisted at most; none of them may stand
elsewhere than behind the one in front of it. -/
structure Sets (case : KeywordCase) (all : List Stroke) (out : Text) (slots : List Slot) :
    Prop where
  text : slots.flatMap (Slot.text case) = out
  order : Hoisted Stroke.kind all (slots.map Slot.stroke)
  chain : slots.IsChain (Slot.Follows all)
  blank : ∀ a ∈ slots, ∀ c ∈ a.space, c = ' ' ∨ c = '\n'
  first : ∀ a ∈ slots.head?, a.space = []

section Settings

variable {case : KeywordCase} {all : List Stroke} {p : Page}

/-- Slots that show cells stand behind each other as the cells do. -/
lemma isChain_follows {slots : List Slot} {cells : List Cell}
    (h : List.Forall₂ Slot.Shows slots cells) (hcells : cells.IsChain (Cell.Follows all))
    (hfeeds : slots.IsChain Slot.Feeds) : slots.IsChain (Slot.Follows all) := by
  induction h with
  | nil => exact .nil
  | @cons a b slots cells hab hrest ih =>
    have hrest' := ih hcells.tail hfeeds.tail
    cases hrest with
    | nil => exact .singleton a
    | @cons a' b' slots cells hab' _ =>
      have hfollows : b.Follows all b' := hcells.rel
      refine .cons_cons ⟨fun hspace => ?_, fun hspace => ?_, hfeeds.rel⟩ hrest'
      · rw [hab.stroke, hab'.stroke]
        exact hfollows.meets (hab'.space.1 hspace)
      · rw [hab.stroke, hab'.stroke]
        exact hfollows.parts (by simpa using mt hab'.space.2 hspace)

/-- Lines with line feeds in front of them. -/
lemma newline_unlines {ls : List Text} (h : ls ≠ []) :
    '\n' :: unlines ls = ls.flatMap ('\n' :: ·) := by
  induction ls with
  | nil => exact absurd rfl h
  | cons l ls ih =>
    by_cases hls : ls = []
    · subst hls
      simp [unlines]
    · rw [unlines_cons hls, ih hls]
      simp

/-- Rows become slots.  The first line has to start at the margin and not to be empty, for the line
feed that is counted in front of it is not there. -/
lemma exists_slots {pairs : List (Line × Row)} (h : ∀ x ∈ pairs, x.1.Reads case x.2)
    (hflush : ∀ x ∈ pairs.head?, x.1.indent = 0 ∧ x.2.cells ≠ [])
    (hcells : (pairs.flatMap (·.2.cells)).IsChain (Cell.Follows all)) :
    ∃ (slots : List Slot) (tail : Text),
      unlines (pairs.map (·.1.render)) = slots.flatMap (Slot.text case) ++ tail ∧
      (∀ c ∈ tail, c = '\n') ∧
      slots.map Slot.stroke = (pairs.flatMap (·.2.cells)).map Cell.stroke ∧
      slots.IsChain (Slot.Follows all) ∧ (∀ a ∈ slots, ∀ c ∈ a.space, c = ' ' ∨ c = '\n') ∧
      ∀ a ∈ slots.head?, a.space = [] := by
  rcases pairs with _ | ⟨⟨l, r⟩, pairs⟩
  · exact ⟨[], [], rfl, by simp, rfl, .nil, by simp, by simp⟩
  obtain ⟨hindent, hne⟩ : l.indent = 0 ∧ r.cells ≠ [] := hflush (l, r) rfl
  have hlead := List.forall_mem_nil (· = '\n')
  obtain ⟨tail, htext, htail⟩ := exists_text_slotsOf h hlead
  have hshows := forall₂_slotsOf h hlead
  have hchain := isChain_follows hshows hcells (feeds_slotsOf h hlead).2
  obtain ⟨a, as, has⟩ := List.exists_cons_of_ne_nil hne
  obtain ⟨slots, hslots⟩ :
      ∃ slots, slotsOf [] ((l, r) :: pairs) = ⟨['\n'], a.stroke⟩ :: slots := by
    simp [slotsOf, has, lineSlots, hindent, fill]
  rw [hslots] at htext hshows hchain
  have hfeed : '\n' :: unlines (((l, r) :: pairs).map (·.1.render)) = _ :=
    newline_unlines (by simp)
  have hlines : (((l, r) :: pairs).map (·.1.render)).flatMap ('\n' :: ·) =
      ((l, r) :: pairs).flatMap ('\n' :: ·.1.render) := List.flatMap_map ..
  rw [List.nil_append, ← hlines, ← hfeed] at htext
  have hstrokes := List.forall₂_map_left_iff.2 (List.forall₂_map_right_iff.2
    (hshows.imp fun _ _ hab => hab.stroke))
  refine ⟨⟨[], a.stroke⟩ :: slots, tail, by simpa [Slot.text] using htext, htail,
    List.forall₂_eq_eq_eq ▸ hstrokes, hchain.tail.cons fun b hb => ?_, fun b hb => ?_, by simp⟩
  · have hfollows := (List.isChain_cons.1 hchain).1 b hb
    exact ⟨hfollows.meets, hfollows.parts, hfollows.note⟩
  · rcases List.mem_cons.1 hb with rfl | hb
    · simp
    · obtain ⟨c, -, hshown⟩ := exists_of_forall₂ hshows (List.mem_cons_of_mem _ hb)
      exact hshown.blank

/-- A page that reads as rows is set in slots, if its first line starts at the margin and is not
empty. -/
lemma Page.Reads.exists_sets {rows : List Row} (h : p.Reads case all all rows)
    (hflush : ∀ l ∈ p.lines.getLast?, l.indent = 0 ∧ l.isBare = false)
    (hsolid : ∀ s ∈ all, Solid (s.shown case)) : ∃ slots, Sets case all p.render slots := by
  obtain ⟨hlength, hzip⟩ := List.forall₂_iff_zip.1 (List.forall₂_reverse_iff.2 h.lines)
  obtain ⟨pairs, hpairs⟩ : ∃ pairs, pairs = p.lines.reverse.zip rows.reverse := ⟨_, rfl⟩
  have hfst : pairs.map Prod.fst = p.lines.reverse := hpairs ▸ List.map_fst_zip hlength.le
  have hsnd : pairs.map Prod.snd = rows.reverse := hpairs ▸ List.map_snd_zip hlength.ge
  have hreads : ∀ x ∈ pairs, x.1.Reads case x.2 := fun x hx => hzip (hpairs ▸ hx)
  have hcells : pairs.flatMap (·.2.cells) = cellsOf rows := by
    rw [cellsOf, ← hsnd, List.flatMap_map]
  have hrender : pairs.map (·.1.render) = p.lines.reverse.map Line.render := by
    rw [← hfst, List.map_map]
    rfl
  have hfirst : ∀ x ∈ pairs.head?, x.1.indent = 0 ∧ x.2.cells ≠ [] := by
    intro x hx
    have hlast : p.lines.getLast? = some x.1 := by
      rw [← List.head?_reverse, ← hfst, List.head?_map, hx]
      rfl
    obtain ⟨hindent, hbare⟩ := hflush x.1 hlast
    refine ⟨hindent, fun hnil => ?_⟩
    have hx := hreads x (List.mem_of_mem_head? hx)
    obtain ⟨hcode, hnotes⟩ := List.append_eq_nil_iff.1 hnil
    have hnote : x.2.note = none := by
      cases hr : x.2.note with
      | none => rfl
      | some c => simp [Row.noteCells, hr] at hnotes
    simp [Line.isBare, hx.bare.2 hcode, hx.note, hnote] at hbare
  obtain ⟨slots, tail, htext, htail, hstrokes, hchain, hblank, hfirst⟩ :=
    exists_slots hreads hfirst (hcells ▸ h.chain)
  have horder : Hoisted Stroke.kind all (slots.map Slot.stroke) := by
    rw [hstrokes, hcells]
    exact h.order
  refine ⟨slots, ?_, horder, hchain, hblank, hfirst⟩
  rw [Page.render, ← hrender, htext, trimEndWhile_append (by simpa using htail)]
  -- what is shown last does not end in a line feed
  refine (trimEndWhile_of_getLast? fun c hc => ?_).symm
  rcases List.eq_nil_or_concat slots with rfl | ⟨front, a, rfl⟩
  · cases hc
  · have ha := hsolid a.stroke (horder.mem_iff.1 (List.mem_map_of_mem (by simp)))
    rw [List.concat_eq_append, List.flatMap_append, List.flatMap_singleton, Slot.text,
      ← List.append_assoc, List.getLast?_append_of_ne_nil _ ha.ne_nil] at hc
    have hspacing := ha.last c hc
    rw [beq_eq_false_iff_ne]
    rintro rfl
    cases hspacing

/-- A stroke that settles keeps its kind and its text. -/
lemma Settles.kind_text {r s : Stroke} (h : Settles r s) : s.kind = r.kind ∧ s.text = r.text := by
  cases h <;> exact ⟨rfl, rfl⟩

lemma Word.text_stroke (w : Word) : w.stroke.text = w.token.text := by
  unfold Word.stroke
  split <;> rfl

/-- What is shown of a stroke of a query is solid. -/
lemma solid_shown_of_settled {tokens : List Token} (htokens : ∀ t ∈ tokens, t.Lexed)
    (hall : Settled ((words tokens).map Word.stroke) all) (case : KeywordCase) :
    ∀ s ∈ all, Solid (s.shown case) := by
  intro s hs
  obtain ⟨w, hw, hws⟩ := exists_word_of_settled hall hs
  have hmem := of_mem_words hw
  rw [Stroke.shown, hws.kind_text.1, hws.kind_text.2, w.kind_stroke, w.text_stroke]
  exact (htokens _ hmem.1).solid_written hmem.2 case

/-- The strokes of a query are what they are called. -/
lemma proper_of_settled {ws : List Word} (hall : Settled (ws.map Word.stroke) all) :
    ∀ s ∈ all, s.Proper := by
  intro s hs
  obtain ⟨w, -, hws⟩ := exists_word_of_settled hall hs
  generalize hr : w.stroke = r at hws
  cases hws with
  | refl =>
    unfold Word.stroke at hr
    split at hr
    · rename_i hcomment
      subst hr
      exact hcomment
    · rename_i hcode
      subst hr
      simpa [Stroke.Proper] using hcode
  | mark t ht => rcases ht with ht | ht <;> simp [Stroke.Proper, ht, Kind.movesUp]
  | glue t ht => exact ht

/-- A script and itself, printed in one style. -/
def Pair.self (style : Style) (all : List Stroke) : Pair where
  recasting := .self
  likeness := .eq
  style := style
  style' := style
  all := all
  indentWidth := rfl
  maxLineWidth := rfl
  oneJoinPerLine := rfl
  spelling := fun _ _ => rfl
  text := fun s _ _ => by cases s <;> rfl
  agrees := agrees_of_stop (fun _ => rfl) all

/-- A query that parses is laid out by moves, which put its words in order and break lines where
that does no harm. -/
lemma exists_moves_of_parse {query : Text} {dialect : Dialect} {script : Script}
    (h : parse query dialect = .ok script) (style : Style) :
    ∃ tokens ms, tokenize query = .ok tokens ∧
      Settled ((words tokens).map Word.stroke) (strokesOf ms) ∧
      strokesOf ms = statementsStrokes script ∧
      Script.layOut style script = Page.empty.run style.keywordCase ms ∧
      Lawful style.keywordCase .empty [] ms [] := by
  obtain ⟨tokens, htokens, hscript⟩ := exists_tokens_of_parse h
  obtain ⟨hsound, hsettled⟩ := divide_segment hscript (sound_of_tokenize htokens)
  rw [leavesOf_eq true false, nodesStrokes_leaves, ← words] at hsettled
  obtain ⟨ms, hstrokes, hpage, -, hlawful⟩ :=
    Script.charted_layOut (.self style (statementsStrokes script)) hsound rfl
  exact ⟨tokens, ms, htokens, hstrokes ▸ hsettled, hstrokes, hpage, hlawful⟩

/-- **A layout is set in slots**, one for each stroke of the script, with the blanks in front of it.
No more than this is needed of printing to read a layout again. -/
theorem exists_sets_of_parse {query : Text} {dialect : Dialect} {script : Script}
    (h : parse query dialect = .ok script) (style : Style) :
    ∃ tokens slots, tokenize query = .ok tokens ∧
      Settled ((words tokens).map Word.stroke) (statementsStrokes script) ∧
      Sets style.keywordCase (statementsStrokes script) (Script.format style script) slots := by
  obtain ⟨tokens, htokens, hholds⟩ := exists_holds_of_parse h style
  obtain ⟨tokens', ms, htokens', hsettled, hstrokes, hpage, hlawful⟩ :=
    exists_moves_of_parse h style
  obtain rfl := Except.ok.inj (htokens.symm.trans htokens')
  rw [hstrokes] at hsettled
  have hproper : ∀ s ∈ strokesOf ms, s.Proper := hstrokes ▸ proper_of_settled hsettled
  have hlaid : (Page.empty.run style.keywordCase ms).Laid style.keywordCase
      (statementsStrokes script) ([] ++ strokesOf ms) [] :=
    Page.Laid.run (by simpa [hstrokes] using Page.Laid.empty _ _) hlawful hproper
  rw [← hpage, hstrokes] at hlaid
  obtain ⟨rows, hrows⟩ := hlaid.reads
  obtain ⟨slots, hslots⟩ := hrows.exists_sets hholds.flush
    (solid_shown_of_settled (lexed_of_tokenize htokens) hsettled _)
  exact ⟨tokens, slots, htokens, hsettled, hslots⟩

end Settings

end SqlInlay.Sql
