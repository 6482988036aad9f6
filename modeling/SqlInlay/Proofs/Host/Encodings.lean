import SqlInlay.Proofs.Host.Blocks
import SqlInlay.Proofs.Host.Meetings

/-!
# Encodings as expressions

A literal is written in one of several ways: on one line, as a row of strings, as a block, or as a
text block in place of a string.  All of them come to the same: what a query is encoded as is an
`Expression` wherever no quote follows, whatever else is there (`exists_expression_of_encode`).

* `SingleLine.expression_split` — a row of strings, from the theory of single lines.
* `OneBlock.expression` — a block, from the theory of triple quotes.
* `SingleLine.promoted` — a string that becomes a text block is written as a block would be.

The strings of a literal for which there is an encoding are an expression as well
(`FragmentsAt.expression`), for comments between them would have been in the way.  Both start with
the same character (`Expression.head?`), so an encoding can take the place of its literal in any
source.
-/

namespace SqlInlay.Host

open SqlInlay.Text

/-! ## Expressions -/

/-- What is read depends on the character in front only as far as a word goes on there. -/
lemma quoted?_before {language : Language} {b b' : Option Char}
    (h : b.any isHostWordChar = b'.any isHostWordChar) (t : Text) :
    quoted? language b t = quoted? language b' t := by
  have hmarker : markerOf language b t = markerOf language b' t := by
    cases language <;> simp only [markerOf, pythonMarker, h]
  simp only [quoted?, hmarker]

/-- A string that is read behind no word is legible. -/
lemma legible_of_quoted? {language : Language} {c : Cursor} {q : Quoted} (hfree : c.IsFree)
    (hq : quoted? language c.before c.rest = some (some q)) (hplain : refusal? q = none) :
    c.rest = q.source ++ (c.advance q.source.length).rest ∧
      Legible language q (c.advance q.source.length).rest := by
  obtain ⟨rest, hrest⟩ := prefix_of_quoted? hq
  have hbehind := (Cursor.advance_append hrest.symm).1
  rw [hbehind]
  refine ⟨hrest.symm, hplain, fun before hbefore => ?_⟩
  rw [hrest, ← hq]
  exact quoted?_before (hbefore.trans hfree.symm) _

/-- **The strings of a literal** are an expression, if there are no comments between them.  The
expression is the text of the source from the first string to the last, and begins with the letters
and quotes of the first fragment. -/
lemma FragmentsAt.expression {buffer : Nat} {language : Language} {c d : Cursor}
    {fragments : List Fragment} (h : FragmentsAt buffer language c fragments d)
    (hfree : c.IsFree)
    (hcomment : ∀ s ∈ separators c.text fragments, hasHostComment language s = false) :
    ∃ e qs, c.rest = e ++ d.rest ∧ Expression language d.rest e qs ∧
      qs.head?.map (fun q => (q.marker, q.delimiter)) =
        fragments.head?.map fun f => (f.marker, f.delimiter) := by
  induction h with
  | @last c q hq hplain =>
    obtain ⟨hrest, hlegible⟩ := legible_of_quoted? hfree hq hplain
    exact ⟨q.source, [q], hrest, .last hlegible, rfl⟩
  | @cons c following d q continued joiner fragments hq hplain hjoiner h ih =>
    obtain ⟨hrest, hlegible⟩ := legible_of_quoted? hfree hq hplain
    obtain ⟨s, hs, htext, hseparators⟩ := h.exists_separator hq hjoiner
    rw [hseparators, List.forall_mem_cons] at hcomment
    have hjoins := joins_of_joinerAt hjoiner hs hcomment.1
    have hfree' : following.IsFree := by
      have hbehind := Cursor.isFree_advance hrest hfree fun x hx => hlegible.not_isHostWordChar hx
      have hreach := (Cursor.reaches_skipTrivia _ language).trans (joinerAt_reaches hjoiner)
      have hadvance := Cursor.Meets.eq_of_rest (Cursor.reaches_advance _ s.length) hreach
        (Cursor.advance_append hs).1
      rw [← hadvance]
      exact Cursor.isFree_advance hs hbehind fun x hx =>
        not_isHostWordChar_of_isIdle (hjoins.isIdle x (List.mem_of_getLast? hx))
    obtain ⟨e, qs, he, hexpression, -⟩ := ih hfree' (htext ▸ hcomment.2)
    rw [hs, he] at hlegible
    refine ⟨q.source ++ (s ++ e), q :: qs, ?_, .cons hlegible hjoins hexpression, rfl⟩
    rw [hrest, hs, he]
    simp

/-- An expression starts with the letters or the quotes of its first string. -/
lemma Expression.head? {language : Language} {rest e : Text} {qs : List Quoted}
    (h : Expression language rest e qs) :
    e.head? = qs.head?.bind fun q => (q.marker ++ q.delimiter).head? := by
  have hsource : ∀ {q : Quoted} {rest : Text}, Legible language q rest → ∀ t : Text,
      (q.source ++ t).head? = (q.marker ++ q.delimiter).head? := by
    intro q rest hq t
    obtain ⟨-, quote, more, -, hdelimiter, -⟩ := hq.parts
    rw [Quoted.source, hdelimiter]
    cases q.marker <;> rfl
  cases h with
  | last hq =>
    have hhead := hsource hq []
    rwa [List.append_nil] at hhead
  | cons hq hs h => exact hsource hq _

/-! ## Encodings -/

/-- Hints at a string that becomes a text block. -/
lemma SingleLine.promoted {h : Hints} (hs : SingleLine h) (hlanguage : h.language = .java)
    (hsingle : h.fragmentCount = 1) (hindent : isBlankText h.lineIndent = true)
    (hline : '\n' ∉ h.lineIndent) (style : Style) :
    OneBlock { h with
      style := .triple
      delimiter := "\"\"\""
      block := some (promotedLayout style h) } (promotedLayout style h) where
  quotes := ⟨hs.quotes.letters, hs.quotes.short, hs.quotes.python, '"', .inl rfl, .inr rfl⟩
  delimiter := rfl
  raw := by
    rw [hs.raw, hlanguage]
    simp
  layout := rfl
  sound := sound_margin hindent hline style
  single := hsingle
  lineIndent := hindent
  lineIndentLine := hline

/-- A block is an expression of one string. -/
lemma OneBlock.expression {h : Hints} {block : BlockLayout} (hb : OneBlock h block)
    {style : Style} {t e : Text} (he : encodeBlock style h block t = .ok e) {rest : Text}
    (hrest : '"' ∉ rest.head?) :
    Expression h.language rest e [blockString h (blockFor style h block t) t] := by
  obtain ⟨rfl, hfault⟩ := encodeBlock_eq_ok he
  exact .last (hb.legible_blockString (hb.sound_blockFor style t) hfault hrest)

/-- The query texts that a literal on single lines is split into are an expression. -/
lemma SingleLine.expression_split {h : Hints} (hs : SingleLine h) (hseveral : 1 < h.fragmentCount)
    {t e : Text} (he : encodeSplit h t = .ok e) {rest : Text} (hrest : h.quote ∉ rest.head?) :
    ∃ p ps, Expression h.language rest e (lineString h p :: ps) := by
  unfold encodeSplit at he
  simp only [hs.hasTriple, Bool.false_eq_true, if_false] at he
  split at he
  · cases he
  · rename_i hcomment
    obtain ⟨s, hseparator, hjoins⟩ := hs.separator hseveral (by simpa using hcomment)
    have hlines : lines t ≠ [] := splitAt_ne_nil '\n' t
    obtain ⟨p, ps, hps⟩ := List.exists_cons_of_ne_nil (pieces_ne_nil hlines)
    rcases mapM_encodeLine h (pieces (lines t)) with ⟨hpieces, hfaults⟩ | ⟨-, failure, hpieces⟩
    · simp only [hpieces, hseparator, Option.getD_some, Except.map] at he
      obtain rfl := Except.ok.inj he
      have hexpression := hs.expression_pieces hjoins hrest hlines hfaults
      rw [hps] at hexpression ⊢
      exact ⟨p, ps.map (lineString h), hexpression⟩
    · simp [hpieces, Except.map] at he

/-- **An encoding** is an expression wherever no quote follows, and has the letters of the first
fragment and its quote. -/
theorem exists_expression_of_encode {buffer : Nat} {language : Language} {marks : Annotations}
    {source : Text} {l : Literal} (hl : .literal l ∈ locate buffer language marks source)
    {query : Text} {hints : Hints} (hdecode : decode source language l = .ok (query, hints))
    {style : Style} {t e : Text} (hencode : encode style hints t = .ok e) {rest : Text}
    (hrest : '"' ∉ rest.head? ∧ '\'' ∉ rest.head?) :
    ∃ q qs, Expression language rest e (q :: qs) ∧ q.marker = hints.marker ∧
      q.delimiter.head? = hints.delimiter.head? := by
  have hquote : ∀ {q : Char}, (q = '"' ∨ hints.language = .python ∧ q = '\'') →
      q ∉ rest.head? := by
    rintro q (rfl | ⟨-, rfl⟩)
    · exact hrest.1
    · exact hrest.2
  obtain ⟨f, fs, block, hfragments, -, hhints⟩ := exists_of_decode hdecode
  have hlanguage : hints.language = language := by rw [hhints]; rfl
  have hcount : hints.fragmentCount = l.fragments.length := by rw [hhints]; rfl
  unfold encode at hencode
  by_cases hseveral : hints.fragmentCount > 1
  · rw [if_pos hseveral] at hencode
    have htriple : ∀ f ∈ l.fragments, f.style ≠ .triple := by
      have hnone : hints.hasTriple = false := by
        unfold encodeSplit at hencode
        split at hencode
        · cases hencode
        · rename_i htriple
          simpa using htriple
      rw [hhints] at hnone
      simpa [hintsOf] using hnone
    have hs := singleLine_of_decode hl htriple hdecode
    obtain ⟨p, ps, hexpression⟩ := hs.expression_split hseveral hencode (hquote hs.quote)
    exact ⟨_, _, hlanguage ▸ hexpression, rfl, rfl⟩
  · rw [if_neg hseveral] at hencode
    obtain rfl : fs = [] := by
      rw [hcount, hfragments] at hseveral
      simpa using hseveral
    by_cases htriple : f.style = .triple
    · obtain ⟨layout, hb, -⟩ := exists_oneBlock_of_decode hl hfragments htriple hdecode
      rw [hb.layout] at hencode
      exact ⟨_, _, hlanguage ▸ hb.expression hencode hrest.1, rfl, rfl⟩
    · have hs := singleLine_of_decode hl (by simpa [hfragments] using htriple) hdecode
      rw [hs.block] at hencode
      simp only at hencode
      split at hencode
      · rename_i hpromote
        simp only [Bool.and_eq_true, beq_iff_eq] at hpromote
        obtain ⟨⟨⟨-, hjava⟩, hdouble⟩, -⟩ := hpromote
        have hindent : hints.lineIndent = lineIndentAt source l.span.start := by rw [hhints]; rfl
        have hb := hs.promoted hjava (by rw [hcount, hfragments]; rfl)
          (hindent ▸ isBlankText_lineIndentAt _ _) (hindent ▸ not_mem_lineIndentAt _ _) style
        refine ⟨_, _, hlanguage ▸ hb.expression hencode hrest.1, rfl, ?_⟩
        have hq : hints.quote = '"' := by
          refine hs.quote.resolve_right ?_
          simp [hjava]
        rw [hs.delimiter, hq]
        rfl
      · rcases encodeLine_eq hints t with ⟨hline, hfault⟩ | ⟨-, fault, hline⟩
        · obtain rfl := Except.ok.inj (hline.symm.trans hencode)
          have hlegible := hs.legible_lineString hfault fun _ => hquote hs.quote
          exact ⟨_, _, .last (hlanguage ▸ hlegible), rfl, rfl⟩
        · rw [hline] at hencode
          cases hencode

end SqlInlay.Host
