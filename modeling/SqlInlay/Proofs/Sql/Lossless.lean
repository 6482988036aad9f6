import Mathlib.Data.List.Chain
import SqlInlay.Proofs.Sql.Printing
import SqlInlay.Proofs.Sql.Segmentation
import SqlInlay.Proofs.Text.Lines

/-!
# The layout loses nothing

`Lossless` says how an output splits into parts: every token of the query is a part of its own,
commas and the like at most hoisted over line comments, and what stands between them is blank.
`formatQuery_lossless` says that every query that parses is laid out so.  A formatter that dropped a
comment, doubled a comma or let a line comment swallow the code behind it would not meet this.

**From pages to parts.**  The parts of a page are read off its lines: the indentation, the pieces,
the comment at the end, and a line feed between two lines.  Trailing separators fall away, and so
does the line feed behind the last line with something on it.

* `Line.flatMap_text_parts`, `Page.Holds.flatMap_text_parts` — the parts make up the text of the
  line, and of the page.
* `Page.isChain_parts` — behind a line comment comes a line feed, so no comment runs on.
* `Page.Holds.parts_ends` — the first part and the last one are no blanks.

**From entries to tokens.**  A page shows entries, which forgot where their tokens stood.  An entry
has the kind and the text of its token, and `Hoisted.of_map` finds the tokens behind hoisted entries
(`exists_tokens_of_hoisted`).

**Queries.**  Three developments meet in `exists_holds_of_parse`: the lexer reads every character
(`flatMap_text_of_tokenize`), segmentation keeps every entry (`segment_entries`), and printing shows
every entry (`Script.holds_layOut`).
-/

namespace SqlInlay.Sql

/-! ## Parts of an output

Parts are made of any pieces, so that the same functions serve entries and tokens: the parts of a
page are found with entries in them, and the tokens are put in afterwards by `Part.map`.
-/

/-- A part of an output: a blank of the layout, or a piece that comes from somewhere.  Pieces may be
what a page shows, or the tokens that it shows. -/
inductive Part (α : Type) where
  | blank (text : Text)
  | piece (a : α)
deriving DecidableEq, Repr

namespace Part

variable {α β : Type}

/-- The text of a part, given those of pieces. -/
def text (f : α → Text) : Part α → Text
  | blank t => t
  | piece a => f a

/-- The piece of a part that is one. -/
def piece? : Part α → Option α
  | blank _ => none
  | piece a => some a

/-- The part with its piece changed. -/
def map (f : α → β) : Part α → Part β
  | blank t => blank t
  | piece a => piece (f a)

@[simp] lemma filterMap_piece?_blank (t : Text) (ps : List (Part α)) :
    (blank t :: ps).filterMap piece? = ps.filterMap piece? := rfl

@[simp] lemma filterMap_piece?_piece (a : α) (ps : List (Part α)) :
    (piece a :: ps).filterMap piece? = a :: ps.filterMap piece? := rfl

/-- What may follow a part: behind a line comment only a blank that starts with a line feed.  So
nothing of the output is drawn into a comment. -/
def MayPrecede (isNote : α → Bool) : Part α → Part α → Prop
  | blank _, _ => True
  | piece a, next => isNote a = true → ∃ rest, next = blank ('\n' :: rest)

/-- Lines of parts with line feeds between them. -/
def unlines : List (List (Part α)) → List (Part α)
  | [] => []
  | [l] => l
  | l :: ls => l ++ blank ['\n'] :: unlines ls

lemma flatMap_text_unlines (f : α → Text) (ls : List (List (Part α))) :
    (unlines ls).flatMap (text f) = Text.unlines (ls.map (·.flatMap (text f))) := by
  fun_induction unlines ls with
  | case1 => rfl
  | case2 l => rfl
  | case3 l ls hne ih =>
    obtain ⟨m, ms, rfl⟩ := List.exists_cons_of_ne_nil (by simpa using hne)
    rw [List.flatMap_append, List.flatMap_cons, ih]
    rfl

lemma filterMap_piece?_unlines (ls : List (List (Part α))) :
    (unlines ls).filterMap piece? = ls.flatMap (·.filterMap piece?) := by
  fun_induction unlines ls with
  | case1 => rfl
  | case2 l => simp
  | case3 l ls _ ih => simp [List.filterMap_append, ih]

lemma blank_mem_unlines {t : Text} {ls : List (List (Part α))} (h : blank t ∈ unlines ls) :
    t = ['\n'] ∨ ∃ l ∈ ls, blank t ∈ l := by
  fun_induction unlines ls with
  | case1 => simp at h
  | case2 l => exact .inr ⟨l, by simp, h⟩
  | case3 l ls _ ih =>
    rcases List.mem_append.1 h with h | h
    · exact .inr ⟨l, by simp, h⟩
    · rcases List.mem_cons.1 h with h | h
      · exact .inl (by simpa using h)
      · rcases ih h with h | ⟨m, hm, h⟩
        · exact .inl h
        · exact .inr ⟨m, List.mem_cons_of_mem _ hm, h⟩

lemma isChain_unlines {isNote : α → Bool} {ls : List (List (Part α))}
    (h : ∀ l ∈ ls, l.IsChain (MayPrecede isNote)) : (unlines ls).IsChain (MayPrecede isNote) := by
  fun_induction unlines ls with
  | case1 => exact .nil
  | case2 l => exact h l (by simp)
  | case3 l ls _ ih =>
    refine (h l (by simp)).append ?_ ?_
    · exact (ih fun m hm => h m (List.mem_cons_of_mem _ hm)).cons fun _ _ => trivial
    · intro a _ b hb
      obtain rfl : blank ['\n'] = b := by simpa using hb
      cases a with
      | blank t => trivial
      | piece a => exact fun _ => ⟨[], rfl⟩

/-- Parts without line comments may stand in any order. -/
lemma isChain_of_forall {isNote : α → Bool} {ps : List (Part α)}
    (h : ∀ a, piece a ∈ ps → isNote a = false) : ps.IsChain (MayPrecede isNote) := by
  induction ps with
  | nil => exact .nil
  | cons p ps ih =>
    refine (ih fun a ha => h a (List.mem_cons_of_mem _ ha)).cons fun q _ => ?_
    cases p with
    | blank t => trivial
    | piece a =>
      intro ha
      rw [h a (List.mem_cons_self ..)] at ha
      simp at ha

lemma unlines_concat {ls : List (List (Part α))} (hne : ls ≠ []) (l : List (Part α)) :
    unlines (ls ++ [l]) = unlines ls ++ blank ['\n'] :: l := by
  fun_induction unlines ls with
  | case1 => simp at hne
  | case2 m => rfl
  | case3 m ls hls ih =>
    have hls' : ls ≠ [] := by simpa using hls
    obtain ⟨k, ks, rfl⟩ := List.exists_cons_of_ne_nil hls'
    calc unlines (m :: (k :: ks ++ [l]))
        = m ++ blank ['\n'] :: unlines (k :: ks ++ [l]) := rfl
      _ = m ++ blank ['\n'] :: unlines (k :: ks) ++ blank ['\n'] :: l := by rw [ih hls']; simp

/-- Parts whose pieces are images are the images of parts. -/
lemma exists_map_eq {g : β → α} {ps : List (Part α)} {bs : List β}
    (h : ps.filterMap piece? = bs.map g) :
    ∃ qs : List (Part β), qs.map (map g) = ps ∧ qs.filterMap piece? = bs := by
  induction ps generalizing bs with
  | nil => exact ⟨[], rfl, by simpa using h.symm⟩
  | cons p ps ih =>
    cases p with
    | blank t =>
      have hps : ps.filterMap piece? = bs.map g := by simpa using h
      obtain ⟨qs, rfl, hqs⟩ := ih hps
      exact ⟨blank t :: qs, rfl, by simpa using hqs⟩
    | piece a =>
      obtain ⟨b, rest, rfl, rfl, hrest⟩ := List.map_eq_cons_iff.1 (by simpa using h.symm)
      obtain ⟨qs, rfl, rfl⟩ := ih hrest.symm
      exact ⟨piece b :: qs, rfl, by simp⟩

lemma text_map (g : β → α) (f : α → Text) (p : Part β) : (p.map g).text f = p.text (f ∘ g) := by
  cases p <;> rfl

end Part

/-! ## The parts of a page

A page keeps its lines from the last to the first and may end in empty ones, which its text does not
have.  `Page.parts` takes them off before anything else is said.
-/

/-- What is shown is a line comment. -/
def Shown.isNote : Shown → Bool
  | note _ => true
  | _ => false

lemma Shown.isNote_of (case : KeywordCase) (kind : Kind) (text : Text) :
    (Shown.of case kind text).isNote = (kind == .lineComment) := by
  cases kind <;> rfl

/-- A piece as a part. -/
def Piece.part : Piece → Part Shown
  | gap => .blank [' ']
  | code t => .piece (.code t)
  | remark t => .piece (.remark t)

namespace Line

variable {l : Line}

/-- The parts of the indentation. -/
def indentParts (l : Line) : List (Part Shown) :=
  if l.indent = 0 then [] else [.blank (Text.fill l.indent ' ')]

/-- The parts of the comment at the end. -/
def noteParts (l : Line) : List (Part Shown) :=
  match l.note with
  | none => []
  | some t => (if l.pieces.isEmpty then [] else [.blank [' ']]) ++ [.piece (.note t)]

/-- The parts of a line. -/
def parts (l : Line) : List (Part Shown) :=
  if l.isBare then [] else l.indentParts ++ l.pieces.reverse.map Piece.part ++ l.noteParts

lemma flatMap_text_parts (l : Line) : l.parts.flatMap (Part.text Shown.text) = l.render := by
  have hindent : l.indentParts.flatMap (Part.text Shown.text) = Text.fill l.indent ' ' := by
    unfold indentParts
    split
    · simp [*, Text.fill]
    · simp [Part.text]
  have hpieces : (l.pieces.reverse.map Piece.part).flatMap (Part.text Shown.text) = l.code := by
    rw [code, List.flatMap_map]
    congr 1
    funext p
    cases p <;> rfl
  have hbare : (l.pieces.isEmpty && l.note.isNone) = l.isBare := rfl
  unfold parts render
  rw [hbare]
  split
  · rfl
  · rw [List.flatMap_append, List.flatMap_append, hindent, hpieces]
    congr 1
    unfold noteParts
    cases l.note with
    | none => rfl
    | some t => cases l.pieces <;> simp [Part.text, Shown.text]

lemma shown_of_isBare (h : l.isBare = true) : l.shown = [] := by
  simp only [isBare, Bool.and_eq_true, List.isEmpty_iff, Option.isNone_iff_eq_none] at h
  simp [shown, h.1, h.2]

lemma render_of_isBare (h : l.isBare = true) : l.render = [] := by
  have hbare : (l.pieces.isEmpty && l.note.isNone) = true := h
  rw [render, if_pos hbare]

lemma filterMap_piece?_parts (l : Line) : l.parts.filterMap Part.piece? = l.shown := by
  unfold parts
  split
  · rename_i h
    rw [shown_of_isBare h]
    rfl
  · have hindent : l.indentParts.filterMap Part.piece? = [] := by
      unfold indentParts
      split <;> rfl
    have hpieces : (l.pieces.reverse.map Piece.part).filterMap Part.piece? =
        l.pieces.reverse.filterMap Piece.shown? := by
      rw [List.filterMap_map]
      congr 1
      funext p
      cases p <;> rfl
    have hnote : l.noteParts.filterMap Part.piece? = l.note.toList.map .note := by
      unfold noteParts
      cases l.note with
      | none => rfl
      | some t => cases l.pieces <;> rfl
    rw [List.filterMap_append, List.filterMap_append, hindent, hpieces, hnote, shown,
      List.nil_append]

lemma blank_mem_parts {t : Text} (h : .blank t ∈ l.parts) : t ≠ [] ∧ ∀ c ∈ t, c = ' ' := by
  unfold parts at h
  split at h
  · simp at h
  · simp only [List.mem_append, List.mem_map] at h
    rcases h with (h | ⟨p, -, h⟩) | h
    · unfold indentParts at h
      split at h
      · simp at h
      · rename_i hindent
        obtain rfl : t = Text.fill l.indent ' ' := by simpa using h
        exact ⟨by simpa [Text.fill] using hindent, fun c hc => List.eq_of_mem_replicate hc⟩
    · cases p with
      | gap =>
        obtain rfl : [' '] = t := by simpa [Piece.part] using h
        simp
      | code t => simp [Piece.part] at h
      | remark t => simp [Piece.part] at h
    · unfold noteParts at h
      split at h
      · simp at h
      · split at h <;> simp_all

lemma isChain_parts (l : Line) : l.parts.IsChain (Part.MayPrecede Shown.isNote) := by
  unfold parts
  split
  · exact .nil
  · have hquiet : ∀ s, Part.piece s ∈ l.indentParts ++ l.pieces.reverse.map Piece.part →
        s.isNote = false := by
      intro s hs
      rcases List.mem_append.1 hs with hs | hs
      · unfold indentParts at hs
        split at hs <;> simp at hs
      · obtain ⟨p, -, hp⟩ := List.mem_map.1 hs
        cases p <;> simp only [Piece.part, reduceCtorEq, Part.piece.injEq] at hp <;>
          exact hp ▸ rfl
    have hfront := Part.isChain_of_forall hquiet
    refine hfront.append ?_ fun a ha b _ => ?_
    · unfold noteParts
      split
      · exact .nil
      · split
        · exact .singleton _
        · exact (List.IsChain.singleton _).cons fun _ _ => trivial
    · cases a with
      | blank t => trivial
      | piece s =>
        intro hs
        rw [hquiet s (List.mem_of_mem_getLast? ha)] at hs
        simp at hs

/-- A tidy line ends in something that it shows. -/
lemma exists_parts_eq_concat (h : l.Tidy) (hbare : l.isBare = false) :
    ∃ front s, l.parts = front ++ [.piece s] := by
  simp only [parts, hbare, Bool.false_eq_true, if_false]
  cases hnote : l.note with
  | some t => exact ⟨_, .note t, by simp only [noteParts, hnote, ← List.append_assoc]; rfl⟩
  | none =>
    have hlast := h.last
    rcases hpieces : l.pieces with _ | ⟨p, ps⟩
    · simp [isBare, hpieces, hnote] at hbare
    · rw [hpieces] at hlast
      have hparts : l.noteParts = [] := by simp [noteParts, hnote]
      rw [hparts, List.append_nil, List.reverse_cons, List.map_append, ← List.append_assoc]
      cases p with
      | gap => simp at hlast
      | code t => exact ⟨_, .code t, rfl⟩
      | remark t => exact ⟨_, .remark t, rfl⟩

/-- A tidy line at the margin begins with something that it shows. -/
lemma exists_parts_eq_cons (h : l.Tidy) (hbare : l.isBare = false) (hindent : l.indent = 0) :
    ∃ s rest, l.parts = .piece s :: rest := by
  simp only [parts, hbare, Bool.false_eq_true, if_false, indentParts, hindent, if_true,
    List.nil_append]
  rcases hpieces : l.pieces.reverse with _ | ⟨p, ps⟩
  · rw [List.reverse_eq_nil_iff] at hpieces
    cases hnote : l.note with
    | none => simp [isBare, hpieces, hnote] at hbare
    | some t => exact ⟨.note t, [], by simp [noteParts, hnote, hpieces]⟩
  · have hfirst := h.first
    rw [← List.head?_reverse, hpieces] at hfirst
    cases p with
    | gap => simp at hfirst
    | code t => exact ⟨.code t, _, rfl⟩
    | remark t => exact ⟨.remark t, _, rfl⟩

end Line

namespace Page

variable {case : KeywordCase} {p : Page} {es : List Entry}

/-- The parts of a page, without empty lines at its end. -/
def parts (p : Page) : List (Part Shown) :=
  Part.unlines ((p.lines.dropWhile Line.isBare).reverse.map Line.parts)

lemma blank_mem_parts {t : Text} (h : .blank t ∈ p.parts) :
    t ≠ [] ∧ ∀ c ∈ t, c = ' ' ∨ c = '\n' := by
  rcases Part.blank_mem_unlines h with rfl | ⟨ps, hps, h⟩
  · simp
  · obtain ⟨l, -, rfl⟩ := List.mem_map.1 hps
    obtain ⟨hne, hspace⟩ := Line.blank_mem_parts h
    exact ⟨hne, fun c hc => .inl (hspace c hc)⟩

lemma isChain_parts (p : Page) : p.parts.IsChain (Part.MayPrecede Shown.isNote) := by
  refine Part.isChain_unlines fun ps hps => ?_
  obtain ⟨l, -, rfl⟩ := List.mem_map.1 hps
  exact l.isChain_parts

/-- The lines of a page end in empty ones. -/
lemma reverse_lines (p : Page) :
    p.lines.reverse =
      (p.lines.dropWhile Line.isBare).reverse ++ (p.lines.takeWhile Line.isBare).reverse := by
  rw [← List.reverse_append, List.takeWhile_append_dropWhile]

lemma filterMap_piece?_parts (p : Page) : p.parts.filterMap Part.piece? = p.shown := by
  have hbare : (p.lines.takeWhile Line.isBare).reverse.flatMap Line.shown = [] := by
    rw [List.flatMap_eq_nil_iff]
    intro l hl
    exact Line.shown_of_isBare (List.mem_takeWhile_imp (List.mem_reverse.1 hl))
  rw [parts, Part.filterMap_piece?_unlines, List.flatMap_map, shown, reverse_lines,
    List.flatMap_append, hbare, List.append_nil]
  congr 1
  funext l
  exact l.filterMap_piece?_parts

/-- A page that shows anything begins and ends with something that it shows.  Bare lines at the end
are dropped, the first line is not bare and has no indentation, and no line that is not bare ends in
a blank. -/
lemma Holds.parts_ends (hp : p.Holds case es) (hne : p.parts ≠ []) :
    (∃ s rest, p.parts = .piece s :: rest) ∧ ∃ front s, p.parts = front ++ [.piece s] := by
  have hkept : p.lines.dropWhile Line.isBare ≠ [] := by
    intro hnil
    exact hne (by simp [parts, hnil, Part.unlines])
  have hsuffix : p.lines.dropWhile Line.isBare <:+ p.lines := List.dropWhile_suffix _
  constructor
  · obtain ⟨above, l, hl⟩ := (List.eq_nil_or_concat _).resolve_left hkept
    have hlast : l ∈ p.lines.getLast? := by
      obtain ⟨front, hfront⟩ := hsuffix
      rw [← hfront, hl]
      simp
    obtain ⟨hindent, hbare⟩ := hp.flush l hlast
    obtain ⟨s, rest, hparts⟩ := Line.exists_parts_eq_cons
      (hp.tidy l (List.mem_of_getLast? hlast)) hbare hindent
    rw [parts, hl, List.concat_eq_append, List.reverse_append, List.map_append,
      List.reverse_singleton, List.map_singleton, hparts, List.singleton_append]
    cases above.reverse.map Line.parts with
    | nil => exact ⟨s, rest, rfl⟩
    | cons m ms => exact ⟨s, _, rfl⟩
  · obtain ⟨l, ls, hls⟩ := List.exists_cons_of_ne_nil hkept
    have hbare : l.isBare = false := by
      have hhead := List.head?_dropWhile_not Line.isBare p.lines
      rw [hls] at hhead
      simpa using hhead
    have hmem : l ∈ p.lines := hsuffix.subset (hls ▸ List.mem_cons_self ..)
    obtain ⟨front, s, hparts⟩ := Line.exists_parts_eq_concat (hp.tidy l hmem) hbare
    rw [parts, hls, List.reverse_cons, List.map_append, List.map_singleton, hparts]
    rcases hnil : ls.reverse.map Line.parts with _ | ⟨m, ms⟩
    · exact ⟨front, s, rfl⟩
    · rw [Part.unlines_concat (by simp)]
      exact ⟨_, s, by rw [← List.cons_append, ← List.append_assoc]⟩

/-- The parts of a page make up its text, for what it shows does not end in a line feed.  Rendering
trims line feeds off the end; those it trims are the lines that the parts leave out. -/
lemma Holds.flatMap_text_parts (hp : p.Holds case es) (hsolid : ∀ s ∈ p.shown, Solid s.text) :
    p.parts.flatMap (Part.text Shown.text) = p.render := by
  have htext : p.parts.flatMap (Part.text Shown.text) =
      Text.unlines ((p.lines.dropWhile Line.isBare).reverse.map Line.render) := by
    rw [parts, Part.flatMap_text_unlines, List.map_map]
    congr 2
    funext l
    exact l.flatMap_text_parts
  have hbare : (p.lines.takeWhile Line.isBare).reverse.map Line.render =
      List.replicate (p.lines.takeWhile Line.isBare).length [] := by
    rw [List.eq_replicate_iff]
    refine ⟨by simp, fun t ht => ?_⟩
    obtain ⟨l, hl, rfl⟩ := List.mem_map.1 ht
    exact Line.render_of_isBare (List.mem_takeWhile_imp (List.mem_reverse.1 hl))
  rw [render, reverse_lines, List.map_append, hbare,
    Text.trimEndWhile_unlines_append_replicate, ← htext]
  refine (Text.trimEndWhile_of_getLast? fun c hc => ?_).symm
  by_cases hnil : p.parts = []
  · simp [hnil] at hc
  · obtain ⟨-, front, s, hparts⟩ := hp.parts_ends hnil
    have hs : Solid s.text := by
      refine hsolid s ?_
      rw [← p.filterMap_piece?_parts, hparts]
      simp [List.filterMap_append]
    rw [hparts, List.flatMap_append, List.flatMap_singleton, Part.text,
      List.getLast?_append_of_ne_nil _ hs.ne_nil] at hc
    have hspacing := hs.last c hc
    by_contra hfeed
    simp only [Bool.not_eq_false, beq_iff_eq] at hfeed
    subst hfeed
    exact absurd hspacing (by decide)

end Page

/-! ## Tokens behind entries -/

/-- The kind and the text of the entries of some tokens are those of the tokens. -/
lemma map_entriesOf (fresh : Bool) (tokens : List Token) :
    (entriesOf fresh tokens).map (fun e => (e.kind, e.text)) =
      (tokens.filter (·.kind != .blank)).map (fun t => (t.kind, t.text)) := by
  induction tokens generalizing fresh with
  | nil => rfl
  | cons t ts ih =>
    simp only [entriesOf]
    split
    · rename_i hblank
      simp [hblank, ih]
    · rename_i hblank
      simp [hblank, ih, Entry.ofToken]

/-- Hoisted entries are hoisted tokens, and shown as such. -/
lemma exists_tokens_of_hoisted (case : KeywordCase) {fresh : Bool} {tokens : List Token}
    {es : List Entry} (h : Hoisted Entry.kind (entriesOf fresh tokens) es) :
    ∃ ts, Hoisted Token.kind (tokens.filter (·.kind != .blank)) ts ∧
      es.map (Entry.shown case) = ts.map fun t => Shown.of case t.kind t.text := by
  have hkeys : Hoisted Prod.fst _ _ := h.map (fun e => (e.kind, e.text)) fun _ => rfl
  rw [map_entriesOf] at hkeys
  obtain ⟨ts, hts, hmap⟩ := hkeys.of_map
  refine ⟨ts, hts, ?_⟩
  have hshown := congrArg (List.map fun k : Kind × Text => Shown.of case k.1 k.2) hmap
  simp only [List.map_map] at hshown
  exact hshown.symm

/-! ## Lossless layouts -/

/-- An output loses nothing of a query: it splits into blanks and the tokens of the query. -/
structure Lossless (case : KeywordCase) (query : Text) (tokens : List Token) (out : Text)
    (parts : List (Part Token)) : Prop where
  /-- The tokens make up the query. -/
  source : tokens.flatMap Token.text = query
  /-- The tokens that count as blank are. -/
  dropped : ∀ t ∈ tokens, t.kind = .blank → ∀ c ∈ t.text, isSpacing c = true
  /-- The parts make up the output, where only keywords and ends of line comments are rewritten. -/
  output : parts.flatMap (Part.text fun t => written case t.kind t.text) = out
  /-- The layout puts nothing but spaces and line feeds. -/
  blank : ∀ t, .blank t ∈ parts → t ≠ [] ∧ ∀ c ∈ t, c = ' ' ∨ c = '\n'
  /-- The tokens of the query are parts, in their order but for marks hoisted over comments. -/
  order : Hoisted Token.kind (tokens.filter (·.kind != .blank)) (parts.filterMap Part.piece?)
  /-- The code is in its order. -/
  code : (parts.filterMap Part.piece?).filter (!·.isTrivia) = tokens.filter (!·.isTrivia)
  /-- The comments are in their order. -/
  comments : (parts.filterMap Part.piece?).filter (·.isComment) = tokens.filter (·.isComment)
  /-- A line comment runs to the end of its line or of the output. -/
  notes : parts.IsChain (Part.MayPrecede (·.kind == .lineComment))
  first : ∀ t, parts.head? ≠ some (.blank t)
  last : ∀ t, parts.getLast? ≠ some (.blank t)

namespace Page.Holds

variable {case : KeywordCase} {p : Page} {query : Text} {tokens : List Token}

/-- What a page shows of some tokens is solid. -/
lemma solid_shown (hp : p.Holds case (entriesOf true tokens))
    (htokens : tokenize query = .ok tokens) :
    ∀ s ∈ p.shown, Solid s.text := by
  have hlexed := lexed_of_tokenize htokens
  obtain ⟨es, hes, hshown⟩ := hp.shown
  obtain ⟨ts, hts, hmap⟩ := exists_tokens_of_hoisted case hes
  intro s hs
  rw [hshown, hmap] at hs
  obtain ⟨t, ht, rfl⟩ := List.mem_map.1 hs
  have htoken : t ∈ tokens.filter (·.kind != .blank) := hts.mem_iff.1 ht
  rw [List.mem_filter, bne_iff_ne] at htoken
  rw [Shown.text_of]
  exact (hlexed t htoken.1).solid_written htoken.2 case

/-- A page that holds the entries of some tokens is a lossless layout of them, whose parts are those
of the page. -/
lemma exists_parts (hp : p.Holds case (entriesOf true tokens))
    (htokens : tokenize query = .ok tokens) :
    ∃ parts, Lossless case query tokens p.render parts ∧
      parts.map (Part.map fun t => Shown.of case t.kind t.text) = p.parts := by
  have hlexed := lexed_of_tokenize htokens
  have hsolid := hp.solid_shown htokens
  obtain ⟨es, hes, hshown⟩ := hp.shown
  obtain ⟨ts, hts, hmap⟩ := exists_tokens_of_hoisted case hes
  rw [hmap, ← p.filterMap_piece?_parts] at hshown
  obtain ⟨parts, hparts, rfl⟩ := Part.exists_map_eq hshown
  refine ⟨parts, ?_, hparts⟩
  constructor
  case source => exact flatMap_text_of_tokenize htokens
  case dropped => exact fun t ht => (hlexed t ht).blank
  case output =>
    rw [← hp.flatMap_text_parts hsolid, ← hparts, List.flatMap_map]
    congr 1
    funext part
    rw [Part.text_map]
    congr 1
    funext t
    exact (Shown.text_of case t.kind t.text).symm
  case blank =>
    intro t ht
    exact Page.blank_mem_parts (hparts ▸ List.mem_map_of_mem ht)
  case order => exact hts
  case code =>
    rw [hts.filter_eq fun c k hc _ htrivia => ?_, List.filter_filter]
    · congr 1
      funext t
      cases hk : t.kind <;> simp [Token.isTrivia, hk]
    · simp [Token.isTrivia, Token.isComment, hc] at htrivia
  case comments =>
    rw [hts.filter_eq fun c k _ hmark _ => ?_, List.filter_filter]
    · congr 1
      funext t
      cases hk : t.kind <;> simp [Token.isComment, hk]
    · cases hk : k.kind <;> simp_all [Kind.movesUp, Token.isComment]
  case notes =>
    have hchain := p.isChain_parts
    rw [← hparts, List.isChain_map] at hchain
    refine hchain.imp fun a b hab => ?_
    cases a with
    | blank t => trivial
    | piece t =>
      intro ht
      obtain ⟨rest, hrest⟩ := hab ((Shown.isNote_of ..).trans ht)
      cases b with
      | blank u => exact ⟨rest, by simpa [Part.map] using hrest⟩
      | piece u => simp [Part.map] at hrest
  case first =>
    intro t ht
    have hhead : p.parts.head? = some (.blank t) := by
      rw [← hparts, List.head?_map, ht]
      rfl
    obtain ⟨⟨s, rest, hs⟩, -⟩ := hp.parts_ends fun hnil => by simp [hnil] at hhead
    simp [hs] at hhead
  case last =>
    intro t ht
    have hlast : p.parts.getLast? = some (.blank t) := by
      rw [← hparts, List.getLast?_map, ht]
      rfl
    obtain ⟨-, front, s, hs⟩ := hp.parts_ends fun hnil => by simp [hnil] at hlast
    simp [hs] at hlast

/-- A page that holds the entries of some tokens is a lossless layout of them. -/
lemma exists_lossless (hp : p.Holds case (entriesOf true tokens))
    (htokens : tokenize query = .ok tokens) :
    ∃ parts, Lossless case query tokens p.render parts := by
  obtain ⟨parts, hparts, -⟩ := hp.exists_parts htokens
  exact ⟨parts, hparts⟩

/-- What a page shows of some tokens is solid, if it shows anything. -/
lemma solid_render (hp : p.Holds case (entriesOf true tokens))
    (htokens : tokenize query = .ok tokens) (hne : p.render ≠ []) : Solid p.render := by
  have hsolid := hp.solid_shown htokens
  have htext := hp.flatMap_text_parts hsolid
  have hparts : p.parts ≠ [] := by
    intro hnil
    rw [hnil] at htext
    exact hne htext.symm
  have hmem : ∀ s : Shown, .piece s ∈ p.parts → Solid s.text := by
    intro s hs
    refine hsolid s ?_
    rw [← p.filterMap_piece?_parts]
    exact List.mem_filterMap.2 ⟨_, hs, rfl⟩
  obtain ⟨⟨s, rest, hfirst⟩, front, t, hlast⟩ := hp.parts_ends hparts
  refine ⟨hne, ?_, ?_⟩
  · have hs := hmem s (by rw [hfirst]; exact List.mem_cons_self ..)
    intro c hc
    rw [← htext, hfirst, List.flatMap_cons, Part.text,
      List.head?_append_of_ne_nil _ hs.ne_nil] at hc
    exact hs.head c hc
  · have ht := hmem t (by rw [hlast]; simp)
    intro c hc
    rw [← htext, hlast, List.flatMap_append, List.flatMap_singleton, Part.text,
      List.getLast?_append_of_ne_nil _ ht.ne_nil] at hc
    exact ht.last c hc

end Page.Holds

/-! ## Queries -/

/-- A query parses where its tokens are segmented. -/
lemma exists_tokens_of_parse {query : Text} {dialect : Dialect} {script : Script}
    (h : parse query dialect = .ok script) :
    ∃ tokens, tokenize query = .ok tokens ∧ segment dialect tokens = .ok script := by
  rw [parse] at h
  cases htokens : tokenize query with
  | error f => simp [htokens, bind, Except.bind] at h
  | ok tokens => exact ⟨tokens, rfl, by simpa [htokens, bind, Except.bind] using h⟩

/-- A query that parses is laid out on a page that holds the entries of its tokens. -/
lemma exists_holds_of_parse {query : Text} {dialect : Dialect} {script : Script}
    (h : parse query dialect = .ok script) (style : Style) :
    ∃ tokens, tokenize query = .ok tokens ∧
      (Script.layOut style script).Holds style.keywordCase (entriesOf true tokens) := by
  obtain ⟨tokens, htokens, hsegment⟩ := exists_tokens_of_parse h
  have hlexed := lexed_of_tokenize htokens
  have hproper : ∀ e ∈ entriesOf true tokens, e.Proper :=
    entriesOf_proper (fun t ht => (hlexed t ht).comma) (fun t ht => (hlexed t ht).semicolon) true
  have hentries := segment_entries hsegment hproper
  refine ⟨tokens, htokens, ?_⟩
  rw [← hentries] at hproper ⊢
  refine Script.holds_layOut hproper (fun e he => ?_) fun s hs => ?_
  · rw [hentries] at he
    exact role_of_mem_head?_entriesOf he
  · rw [hentries] at hproper
    exact entries_ne_nil_of_segment hsegment hproper s (List.mem_of_mem_head? hs)

/-- **No blanks surround a layout.**  It starts and ends with a piece that was written, and pieces
neither start nor end with blanks. -/
theorem solid_of_formatQuery {style : Style} {dialect : Dialect} {query out : Text}
    (h : formatQuery style dialect query = .ok out) (hne : out ≠ []) : Solid out := by
  rw [formatQuery] at h
  cases hparse : parse query dialect with
  | error f =>
    rw [hparse] at h
    cases h
  | ok script =>
    rw [hparse] at h
    obtain rfl := Except.ok.inj h
    obtain ⟨tokens, htokens, hholds⟩ := exists_holds_of_parse hparse style
    exact hholds.solid_render htokens hne

/-- **The layout loses nothing.**  A query that parses is laid out, and its layout splits into its
tokens and blanks. -/
theorem formatQuery_lossless {style : Style} {dialect : Dialect} {query : Text} {script : Script}
    (h : parse query dialect = .ok script) :
    ∃ tokens out parts, tokenize query = .ok tokens ∧ formatQuery style dialect query = .ok out ∧
      Lossless style.keywordCase query tokens out parts := by
  have hformat : formatQuery style dialect query = .ok (Script.format style script) := by
    rw [formatQuery, h]
    rfl
  obtain ⟨tokens, htokens, hholds⟩ := exists_holds_of_parse h style
  obtain ⟨parts, hparts⟩ := hholds.exists_lossless htokens
  exact ⟨tokens, _, parts, htokens, hformat, hparts⟩

/-- A query with a comma behind a line comment, which the layout puts in front of the comment. -/
theorem formatQuery_lossless_comma_behind_note :
    formatQuery {} .jpql "select a -- n\n, b" = .ok "SELECT\n    a, -- n\n    b".toList ∧
      ∃ tokens out parts, tokenize "select a -- n\n, b" = .ok tokens ∧
        formatQuery {} .jpql "select a -- n\n, b" = .ok out ∧
        Lossless .upper "select a -- n\n, b" tokens out parts := by
  refine ⟨by decide +kernel, ?_⟩
  have hparses : (parse "select a -- n\n, b" .jpql).isOk = true := by decide +kernel
  cases h : parse "select a -- n\n, b" .jpql with
  | error f =>
    rw [h] at hparses
    exact absurd hparses (by simp [Except.isOk, Except.toBool])
  | ok script => exact formatQuery_lossless h

end SqlInlay.Sql
