import Mathlib.Data.List.Forall2
import SqlInlay.Proofs.Host.Contents
import SqlInlay.Proofs.Host.Expressions
import SqlInlay.Proofs.Text.Lines

/-!
# Literals on single lines

A text that is encoded as strings on single lines, one or several, is found and decoded again.  The
text may be anything, with quotes, backslashes, line feeds and templates in it, and the literal that
it takes the place of decides how it is written: with which letters and quotes, in which language,
and with what between the strings.

**Hints.**  `SingleLine` is what decoding a literal without triple quotes says about it: letters and
quotes that a string may be written with, and a connection that may stand between strings.
`singleLine_of_decode` gets it from a literal that was found and decoded, and nothing else about the
literal is used.

**One string** is legible because its content is escaped, or because a raw text was refused
otherwise.

* `walks_lineBody` — the scan passes over the content, for what could end it is escaped.
* `legible_lineString` — so the string is read as it was written, in front of anything but a quote.
* `decodeFragment_lineString` — it stands for its text, for unescaping undoes escaping.

**Several strings** hold one line each.  All but the last end in a line feed, so none of them is
empty, and decoding puts no space behind them.  `expression_pieces` makes one expression of them and
`decodeFragments_pieces` puts their texts together again.

**The round trip** is `encode_singleLine_lossless`.  Where nothing comes back, nothing was encoded:
encoding fails for raw strings that cannot hold the text, and for several strings where comments
stand between the pieces.
-/

namespace SqlInlay.Host

open SqlInlay.Text

/-! ## What hints say -/

/-- Letters and quotes of a string that is plain text may be written again.  The letters that make
more of a string than text are those that such a string is refused for. -/
lemma quotes_of_quoted? {language : Language} {before : Option Char} {t : Text} {q : Quoted}
    (h : quoted? language before t = some (some q)) (hplain : refusal? q = none) :
    Quotes language q.marker q.delimiter := by
  have hletters := (quoted?_parts h).1
  obtain ⟨delimiter, hdelimiter, hq⟩ := Option.map_eq_some_iff.1 h
  obtain ⟨content, -, rfl⟩ := Option.map_eq_some_iff.1 hq
  have hquotes := (delimiter?_cases hdelimiter).2
  refine ⟨fun c hc => ?_, ?_, fun hlanguage => ?_, ?_⟩
  · have hletter := hletters c hc
    unfold refusal? at hplain
    split_ifs at hplain with hf hb
    simp only [List.any_eq_true, Bool.or_eq_true, decide_eq_true_eq, not_exists, not_and,
      not_or] at hf hb
    have hf := hf c hc
    have hb := hb c hc
    revert hletter
    simp
    tauto
  · simp only [markerOf]
    split
    · unfold pythonMarker
      split
      · simp
      · simp only
        split
        · split
          · exact (List.takeWhile_prefix _).length_le.trans (List.length_take_le 2 t)
          · simp
        · simp
    · simp
    · simp
  · cases language <;> first | rfl | exact absurd rfl hlanguage
  · simp only [List.mem_cons, List.not_mem_nil, or_false] at hquotes
    rcases hquotes with (rfl | rfl) | ⟨hpython, rfl | rfl⟩
    · exact ⟨'"', .inl rfl, .inr rfl⟩
    · exact ⟨'"', .inl rfl, .inl rfl⟩
    · exact ⟨'\'', .inr ⟨hpython, rfl⟩, .inr rfl⟩
    · exact ⟨'\'', .inr ⟨hpython, rfl⟩, .inl rfl⟩

/-- A string with such letters is plain text. -/
lemma Quotes.refusal? {language : Language} {marker delimiter : Text}
    (h : Quotes language marker delimiter) (content : Text) :
    refusal? ⟨marker, delimiter, content⟩ = none := by
  have hletters : ∀ c ∈ marker, ¬ (c = 'f' ∨ c = 'F') ∧ ¬ (c = 'b' ∨ c = 'B') := by
    intro c hc
    have hletter := h.letters c hc
    revert hletter
    simp
    rintro (rfl | rfl | rfl | rfl) <;> decide
  unfold Host.refusal?
  rw [if_neg, if_neg]
  · simpa using fun c hc => not_or.1 (hletters c hc).2
  · simpa using fun c hc => not_or.1 (hletters c hc).1

/-- Every fragment is written with letters and quotes that a string may have, and has the style
that they make. -/
lemma FragmentsAt.quotes {buffer : Nat} {language : Language} {c d : Cursor}
    {fragments : List Fragment} (h : FragmentsAt buffer language c fragments d) :
    ∀ f ∈ fragments, Quotes language f.marker f.delimiter ∧
      f.style = Quoted.style ⟨f.marker, f.delimiter, []⟩ language := by
  induction h with
  | last hq hplain =>
    simpa using ⟨quotes_of_quoted? hq hplain, rfl⟩
  | cons hq hplain hjoiner h ih =>
    exact List.forall_mem_cons.2 ⟨⟨quotes_of_quoted? hq hplain, rfl⟩, ih⟩

lemma Quoted.style_eq_triple {q : Quoted} {language : Language} :
    q.style language = .triple ↔ q.isTriple = true := by
  unfold Quoted.style
  split_ifs with h <;> simp [h]

/-- Of the fragments without triple quotes, those with a letter that says so are raw. -/
lemma isRaw_of_style {f : Fragment} {q : Quoted} {language : Language}
    (hstyle : f.style = q.style language) (hmarker : f.marker = q.marker)
    (htriple : f.style ≠ .triple) : f.isRaw language = hasRawLetter f.marker := by
  have hnone : (f.style == .triple) = false := by simpa using htriple
  rw [Fragment.isRaw, hnone, Bool.and_false, Bool.or_false]
  by_cases hr : f.style = .raw
  · have hletter : hasRawLetter f.marker = true := by
      rw [hmarker]
      rw [hr, Quoted.style] at hstyle
      split_ifs at hstyle with _ h
      exact h.2
    simp [hr, hletter]
  · simp [hr]

/-- What stands between two fragments is what was passed between them. -/
lemma FragmentsAt.exists_separator {buffer : Nat} {language : Language} {c following d : Cursor}
    {q : Quoted} {continued : Bool} {joiner : Joiner} {fragments : List Fragment}
    (hq : quoted? language c.before c.rest = some (some q))
    (hjoiner : joinerAt language continued
      ((c.advance q.source.length).skipTrivia language) = some (joiner, following))
    (h : FragmentsAt buffer language following fragments d) :
    ∃ s, (c.advance q.source.length).rest = s ++ following.rest ∧ following.text = c.text ∧
      separators c.text
          ({ fragmentAt buffer language c q with joiner := some joiner } :: fragments) =
        s :: separators c.text fragments := by
  have hreach := (Cursor.reaches_skipTrivia _ language).trans (joinerAt_reaches hjoiner)
  obtain ⟨s, hs, -⟩ := hreach.exists_between
  have hstop := FragmentsAt.offset_behind buffer hq
  obtain ⟨g, gs, rfl⟩ : ∃ g gs, fragments = g :: gs := by
    cases h with
    | last => exact ⟨_, _, rfl⟩
    | cons => exact ⟨_, _, rfl⟩
  have hstart : g.span.start = following.offset := by simpa using h.ends.1
  have hslice : slice (fragmentAt buffer language c q).span.stop g.span.start c.text = s := by
    rw [← hstop, hstart, ← c.text_advance q.source.length]
    exact hreach.slice_eq hs
  refine ⟨s, hs, ?_, by simp only [separators, hslice]⟩
  rw [hreach.text_eq, Cursor.text_advance]

/-- What stands between the first two fragments joins them, unless there is a comment in it. -/
lemma FragmentsAt.joins {buffer : Nat} {language : Language} {c d : Cursor}
    {fragments : List Fragment} (h : FragmentsAt buffer language c fragments d)
    (hseveral : 1 < fragments.length)
    (hcomment : ∀ s ∈ separators c.text fragments, hasHostComment language s = false) :
    ∃ s ∈ (separators c.text fragments).head?, Joins language s := by
  cases h with
  | last => simp at hseveral
  | @cons c following d q continued joiner fragments hq hplain hjoiner h =>
    obtain ⟨s, hs, -, hseparators⟩ := h.exists_separator hq hjoiner
    rw [hseparators] at hcomment ⊢
    rw [List.forall_mem_cons] at hcomment
    exact ⟨s, rfl, joins_of_joinerAt hjoiner hs hcomment.1⟩

/-- Hints at a literal that is written on single lines.  There may be several of them, and then what
joined them is known and holds no comment, or writing refuses. -/
structure SingleLine (h : Hints) : Prop where
  quotes : Quotes h.language h.marker h.delimiter
  delimiter : h.delimiter = [h.quote]
  raw : h.raw = hasRawLetter h.marker
  block : h.block = none
  hasTriple : h.hasTriple = false
  separator : 1 < h.fragmentCount → h.separatorComments = false →
    ∃ s, h.separator = some s ∧ Joins h.language s

/-- Fragments without triple quotes have no layout, so the one that a literal is left with is the
one it started with. -/
lemma block_of_decodeFragments {source : Text} {language : Language} {read : Text}
    {block : Option BlockLayout} {fragments : List Fragment} {result : Text × Option BlockLayout}
    (htriple : ∀ f ∈ fragments, f.style ≠ .triple)
    (h : decodeFragments source language read block fragments = .ok result) : result.2 = block := by
  induction fragments generalizing read block with
  | nil =>
    cases h
    rfl
  | cons f fs ih =>
    rw [List.forall_mem_cons] at htriple
    rw [decodeFragments] at h
    cases hf : decodeFragment source language f with
    | error failure =>
      rw [hf] at h
      cases h
    | ok decoded =>
      obtain ⟨t, layout⟩ := decoded
      rw [hf] at h
      have hlayout : layout = none := by
        unfold decodeFragment at hf
        simp only [htriple.1, if_false] at hf
        split at hf
        · cases hf
        · split at hf
          · cases hf
            rfl
          · cases hu : unescape language f.content.start (f.content.of source) with
            | error failure => simp [hu, Except.map] at hf
            | ok t' =>
              simp only [hu, Except.map, Except.ok.injEq, Prod.mk.injEq] at hf
              exact hf.2.symm
      rw [ih htriple.2 h, hlayout]
      cases block <;> rfl

/-- What decoding consists of. -/
lemma exists_of_decode {source : Text} {language : Language} {l : Literal} {query : Text}
    {hints : Hints} (h : decode source language l = .ok (query, hints)) :
    ∃ f fs block, l.fragments = f :: fs ∧
      decodeFragments source language [] none l.fragments = .ok (query, block) ∧
      hints = hintsOf source language l f block := by
  unfold decode at h
  split at h
  · cases h
  · rename_i f fs hfragments
    cases hdecoded : decodeFragments source language [] none l.fragments with
    | error failure => simp [hdecoded, Except.map] at h
    | ok decoded =>
      obtain ⟨t, block⟩ := decoded
      simp only [hdecoded, Except.map, Except.ok.injEq, Prod.mk.injEq] at h
      exact ⟨f, fs, block, hfragments, by rw [h.1], h.2.symm⟩

/-- What decoding a literal without triple quotes says about it.  If it has several fragments and no
comment between them, the separator that the hints hold is what stands between the first two, and it
joins strings. -/
lemma singleLine_of_decode {buffer : Nat} {language : Language} {marks : Annotations}
    {source : Text} {l : Literal} (hl : .literal l ∈ locate buffer language marks source)
    (htriple : ∀ f ∈ l.fragments, f.style ≠ .triple) {query : Text} {hints : Hints}
    (h : decode source language l = .ok (query, hints)) : SingleLine hints := by
  obtain ⟨first, last, hfirst, hstands⟩ := exists_standsAt hl
  have htext : first.text = source := hfirst.text_eq.trans (Cursor.text_start source)
  obtain ⟨f, fs, block, hfragments, hdecoded, rfl⟩ := exists_of_decode h
  obtain rfl : block = none := block_of_decodeFragments htriple hdecoded
  have hf : f ∈ l.fragments := by simp [hfragments]
  obtain ⟨hwritten, hstyle⟩ := hstands.fragments.quotes f hf
  have hsingle : f.style ≠ .triple := htriple f hf
  obtain ⟨q, hq, hdelimiter⟩ := hwritten.delimiter
  have hdelimiter : f.delimiter = [q] := by
    refine hdelimiter.resolve_right fun h₃ => hsingle ?_
    rw [hstyle, Quoted.style_eq_triple]
    simp [Quoted.isTriple, h₃]
  refine ⟨hwritten, ?_, ?_, rfl, ?_, fun hseveral hcomments => ?_⟩
  · simp [hintsOf, Hints.quote, hdelimiter]
  · exact isRaw_of_style hstyle rfl hsingle
  · simpa [hintsOf] using htriple
  · simp only [hintsOf] at hseveral hcomments ⊢
    rw [List.any_eq_false] at hcomments
    obtain ⟨s, hs, hjoins⟩ := hstands.fragments.joins hseveral fun s hs => by
      rw [htext] at hs
      simpa using hcomments s hs
    rw [htext] at hs
    exact ⟨s, hs, hjoins⟩

/-! ## One string -/

/-- What stands between the quotes of a text on one line. -/
def lineBody (h : Hints) (t : Text) : Text :=
  if h.raw then t else escape ⟨h.language, h.quote, false, false, h.unicodeEscapes⟩ t

/-- The string that a text on one line is written as. -/
def lineString (h : Hints) (t : Text) : Quoted := ⟨h.marker, h.delimiter, lineBody h t⟩

/-- A text on one line is enclosed, unless it is raw and cannot be. -/
lemma encodeLine_eq (h : Hints) (t : Text) :
    (encodeLine h t = .ok (lineString h t).source ∧
        (h.raw = true → rawLineFault? h t = none)) ∨
      h.raw = true ∧ ∃ fault, encodeLine h t = .error (.encodeUnsupported fault) := by
  unfold encodeLine lineString lineBody Quoted.source Hints.enclose
  by_cases hraw : h.raw = true
  · simp only [hraw, if_true, true_and]
    cases hfault : rawLineFault? h t with
    | none => exact .inl ⟨rfl, fun _ => rfl⟩
    | some fault => exact .inr ⟨fault, rfl⟩
  · simp [hraw]

namespace SingleLine

variable {h : Hints}

lemma quote (hs : SingleLine h) : h.quote = '"' ∨ h.language = .python ∧ h.quote = '\'' := by
  have hquote := hs.quotes.quote_cases
  rw [hs.delimiter] at hquote
  simpa using hquote

lemma not_template (hs : SingleLine h) : h.quote ≠ '\\' ∧ h.quote ≠ '\n' ∧ h.quote ≠ '$' := by
  rcases hs.quote with hq | ⟨-, hq⟩ <;> rw [hq] <;> decide

/-- Only Python has raw strings on a line. -/
lemma language_of_raw (hs : SingleLine h) (hraw : h.raw = true) : h.language = .python := by
  by_contra hlanguage
  rw [hs.raw, hs.quotes.python hlanguage] at hraw
  cases hraw

/-- The rule for contents between the quotes. -/
lemma contentRule (hs : SingleLine h) :
    ContentRule.of h.language h.delimiter =
      ⟨[h.quote], true, false, h.language == .kotlin, false⟩ := by
  rw [hs.delimiter]
  simp [ContentRule.of]

/-- What is escaped may stand in such contents. -/
lemma fits (hs : SingleLine h) :
    Fits ⟨h.language, h.quote, false, false, h.unicodeEscapes⟩
      ⟨[h.quote], true, false, h.language == .kotlin, false⟩ where
  quote := hs.quote.imp id And.right
  delimiter := ⟨[], rfl⟩
  escapes := rfl
  multiline hblock := absurd hblock Bool.false_ne_true
  templates hlanguage := by simpa using hlanguage

/-- The content is passed over, and does not start with the quote.  A raw text has neither quote nor
line feed in it, or it would have been refused; in an escaped one the quote has a backslash in front
of it. -/
lemma walks_lineBody (hs : SingleLine h) {t : Text}
    (ht : h.raw = true → rawLineFault? h t = none) (rest : Text) :
    Walks (.of h.language h.delimiter) (h.quote :: rest) (lineBody h t) ∧
      h.quote ∉ (lineBody h t).head? := by
  rw [hs.contentRule]
  unfold lineBody
  split
  · rename_i hraw
    have hfault := ht hraw
    unfold rawLineFault? at hfault
    split_ifs at hfault with hline hquote hlast
    simp only [List.any_eq_true, Bool.or_eq_true, beq_iff_eq, not_exists, not_and, not_or]
      at hline hquote
    refine ⟨walks_raw ?_ (.inr fun hmem => (hline _ hmem).1 rfl) ?_ fun _ => hlast,
      fun hhead => hquote _ (List.mem_of_head? hhead) rfl⟩
    · simp [hs.language_of_raw hraw]
    · intro c u hsuffix
      exact after?_cons_eq_none (hquote c (hsuffix.subset (List.mem_cons_self ..))) [] _
  · refine ⟨walks_escape hs.fits rfl t rest, fun hhead => ?_⟩
    cases t with
    | nil => cases hhead
    | cons c t =>
      rw [escape, escapeFrom] at hhead
      split at hhead
      · simp only [escapeQuote, Bool.not_false, Bool.true_or, if_true, List.cons_append,
          List.head?_cons, Option.mem_some_iff] at hhead
        exact hs.not_template.1 hhead.symm
      · rename_i hc
        rcases head?_escapeChar ⟨h.language, h.quote, false, false, h.unicodeEscapes⟩ c t.head? with
          hchar | hchar
        · rw [List.head?_append, hchar] at hhead
          exact hs.not_template.1 (Option.some.inj hhead).symm
        · rw [hchar] at hhead
          exact hc (Option.some.inj hhead)

/-- **A string on one line** is read back; an empty one, unless a quote follows it.  Raw strings are
written only where writing found no fault with the text. -/
lemma legible_lineString (hs : SingleLine h) {t : Text}
    (ht : h.raw = true → rawLineFault? h t = none) {rest : Text}
    (hrest : lineBody h t = [] → h.quote ∉ rest.head?) :
    Legible h.language (lineString h t) rest where
  plain := hs.quotes.refusal? (lineBody h t)
  quoted before hbefore := by
    obtain ⟨hwalks, hhead⟩ := hs.walks_lineBody ht rest
    have hsource : (lineString h t).source ++ rest =
        h.marker ++ (h.delimiter ++ (lineBody h t ++ (h.delimiter ++ rest))) := by
      simp [lineString, Quoted.source]
    have hclose : content? (.of h.language h.delimiter) (h.delimiter ++ rest) = some [] := by
      have hafter : after? [h.quote] (h.quote :: rest) = some rest := after?_append [h.quote] rest
      have htemplate : opensWith ['$', '\x7b'] (h.quote :: rest) = false := by
        rw [← Bool.not_eq_true, opensWith_iff]
        rintro ⟨more, hmore⟩
        exact hs.not_template.2.2 (List.cons.inj hmore).1.symm
      rw [hs.contentRule, hs.delimiter, List.singleton_append, content?.eq_def]
      simp [hs.not_template, htemplate, hafter]
    rw [hsource]
    have hbody : Walks (.of h.language h.delimiter) (h.delimiter ++ rest) (lineBody h t) := by
      rw [hs.delimiter] at hwalks ⊢
      exact hwalks
    refine quoted?_of_content? hs.quotes ?_ ?_ hbefore
    · rw [hbody.content?, hclose, Option.map_some, List.append_nil]
    · rw [hs.delimiter]
      refine Quotes.delimiter?_single hs.quote ?_
      rintro ⟨more, hmore⟩
      cases hbody : lineBody h t with
      | nil =>
        rw [hbody] at hmore
        have hrest' : h.quote :: more = rest := (List.cons.inj hmore).2
        exact hrest hbody (by rw [← hrest']; rfl)
      | cons c u =>
        rw [hbody] at hmore hhead
        exact hhead (by rw [(List.cons.inj hmore).1]; rfl)

/-- **A string on one line** stands for its text.  It has no margin, so its content is read as it
is. -/
lemma decodeFragment_lineString (hs : SingleLine h) {t : Text}
    (ht : h.raw = true → rawLineFault? h t = none) {source : Text} {f : Fragment}
    (hf : Shows source h.language f (lineString h t)) :
    decodeFragment source h.language f = .ok (t, none) := by
  have hstyle : f.style ≠ .triple := by
    rw [hf.style, ne_eq, Quoted.style_eq_triple]
    simp [Quoted.isTriple, lineString, hs.delimiter]
  have hraw : f.isRaw h.language = h.raw := by
    rw [isRaw_of_style hf.style hf.marker hstyle, hf.marker, hs.raw]
    rfl
  obtain ⟨hwalks, -⟩ := hs.walks_lineBody ht []
  have hcontent : f.content.of source = lineBody h t := hf.content
  unfold decodeFragment
  simp only [hraw, hcontent, hstyle, if_false]
  by_cases hr : h.raw = true
  · have hlanguage : h.language ≠ .kotlin := by
      rw [hs.language_of_raw hr]
      decide
    simp [hlanguage, hr, lineBody]
  · rw [Bool.not_eq_true] at hr
    have htemplate : (if h.language = .kotlin then
        templateFrom? false f.content.start (lineBody h t) else none) = none := by
      split
      · rename_i hlanguage
        rw [hs.contentRule] at hwalks
        exact hwalks.templateFrom? (by simp [hlanguage]) rfl _
      · rfl
    have hbody : lineBody h t =
        escape ⟨h.language, h.quote, false, false, h.unicodeEscapes⟩ t := by
      simp [lineBody, hr]
    have hread : unescape h.language f.content.start (lineBody h t) = .ok t := by
      rw [hbody]
      exact reads_escape ⟨h.language, h.quote, false, false, h.unicodeEscapes⟩
        (hs.quote.imp id And.right) t _
    simp [hr, htemplate, hread, Except.map]

/-! ## Several strings -/

/-- Only nothing is written as nothing. -/
lemma eq_nil_of_lineBody {t : Text} (ht : lineBody h t = []) : t = [] := by
  unfold lineBody at ht
  split at ht
  · exact ht
  · have hhead := head?_escapeFrom ⟨h.language, h.quote, false, false, h.unicodeEscapes⟩ 0 t
    rw [escape] at ht
    rw [ht] at hhead
    rcases hhead with hhead | hhead
    · cases hhead
    · exact List.head?_eq_none_iff.1 hhead.symm

/-- Texts are enclosed one by one, unless they are raw and one of them cannot be. -/
lemma mapM_encodeLine (h : Hints) (ps : List Text) :
    (ps.mapM (encodeLine h) = .ok (ps.map fun p => (lineString h p).source) ∧
        ∀ p ∈ ps, h.raw = true → rawLineFault? h p = none) ∨
      h.raw = true ∧ ∃ failure, ps.mapM (encodeLine h) = .error failure := by
  induction ps with
  | nil => exact .inl ⟨rfl, by simp⟩
  | cons p ps ih =>
    rw [List.mapM_cons]
    rcases encodeLine_eq h p with ⟨hp, hfault⟩ | ⟨hraw, fault, hp⟩
    · rcases ih with ⟨hps, hfaults⟩ | ⟨hraw, failure, hps⟩
      · left
        rw [hp, hps]
        exact ⟨rfl, List.forall_mem_cons.2 ⟨hfault, hfaults⟩⟩
      · right
        rw [hp, hps]
        exact ⟨hraw, failure, rfl⟩
    · right
      rw [hp]
      exact ⟨hraw, _, rfl⟩

lemma pieces_ne_nil {ls : List Text} (hls : ls ≠ []) : pieces ls ≠ [] := by
  match ls with
  | [] => exact absurd rfl hls
  | [_] => simp [pieces]
  | _ :: _ :: _ => simp [pieces]

/-- The strings of the lines of a text make an expression. -/
lemma expression_pieces (hs : SingleLine h) {s rest : Text} (hjoins : Joins h.language s)
    (hrest : h.quote ∉ rest.head?) {ls : List Text} (hls : ls ≠ [])
    (hfaults : ∀ p ∈ pieces ls, h.raw = true → rawLineFault? h p = none) :
    Expression h.language rest (joinWith s ((pieces ls).map fun p => (lineString h p).source))
      ((pieces ls).map (lineString h)) := by
  induction ls with
  | nil => exact absurd rfl hls
  | cons l ls ih =>
    cases ls with
    | nil =>
      exact .last (hs.legible_lineString (hfaults l (by simp [pieces])) fun _ => hrest)
    | cons m ls =>
      rw [pieces, List.forall_mem_cons] at hfaults
      have hbehind := ih (by simp) hfaults.2
      obtain ⟨p, ps, hps⟩ := List.exists_cons_of_ne_nil (pieces_ne_nil (List.cons_ne_nil m ls))
      rw [pieces]
      rw [hps] at hbehind ⊢
      simp only [List.map_cons, joinWith, List.append_assoc]
      refine .cons (hs.legible_lineString hfaults.1 fun hnil => ?_) hjoins hbehind
      exact absurd (eq_nil_of_lineBody hnil) (by simp)

/-- No space is put behind a line feed. -/
lemma joinTexts_of_blank {s : Text} (hs : s.getLast?.any (!isBlank ·) = false) (t : Text) :
    joinTexts s t = s ++ t := by
  simp [joinTexts, hs]

/-- The strings of the lines of a text stand for the text.  Every string but the last one ends with
the line feed of its line, so nothing has to be put between it and the next one. -/
lemma decodeFragments_pieces (hs : SingleLine h) {source : Text} {ls : List Text} (hls : ls ≠ [])
    (hfaults : ∀ p ∈ pieces ls, h.raw = true → rawLineFault? h p = none) {fs : List Fragment}
    (hfs : List.Forall₂ (Shows source h.language) fs ((pieces ls).map (lineString h)))
    {read : Text} (hread : read.getLast?.any (!isBlank ·) = false) :
    decodeFragments source h.language read none fs = .ok (read ++ unlines ls, none) := by
  induction ls generalizing fs read with
  | nil => exact absurd rfl hls
  | cons l ls ih =>
    cases ls with
    | nil =>
      obtain ⟨f, _, hf, hnil, rfl⟩ := List.forall₂_cons_right_iff.1 hfs
      obtain rfl := List.forall₂_nil_right_iff.1 hnil
      rw [decodeFragments, hs.decodeFragment_lineString (hfaults l (by simp [pieces])) hf]
      simp only [joinTexts_of_blank hread, decodeFragments]
      rfl
    | cons m ls =>
      rw [pieces, List.forall_mem_cons] at hfaults
      obtain ⟨f, fs, hf, hbehind, rfl⟩ := List.forall₂_cons_right_iff.1 hfs
      rw [decodeFragments, hs.decodeFragment_lineString hfaults.1 hf]
      simp only [joinTexts_of_blank hread]
      have hblank : (read ++ (l ++ ['\n'])).getLast?.any (!isBlank ·) = false := by
        rw [← List.append_assoc, List.getLast?_concat]
        rfl
      rw [unlines_cons (by simp)]
      refine (ih (by simp) hfaults.2 hbehind hblank).trans ?_
      simp

end SingleLine

/-! ## The round trip -/

/-- What is encoded is found in an annotation as the one literal there, and stands for a text.  The
annotation has no other argument, and the source holds nothing else. -/
def ReadsBack (language : Language) (e t : Text) : Prop :=
  ∃ m : Literal, locate 0 language {} (annotate e) = [.literal m] ∧
    m.span = ⟨0, bytes "@Query(", bytes "@Query(" + bytes e⟩ ∧
    ∃ hints, decode (annotate e) language m = .ok (t, hints)

/-- An expression whose strings stand for a text is read back as that text. -/
lemma readsBack_of_expression {language : Language} {e t : Text} {qs : List Quoted}
    (h : Expression language [')'] e qs)
    (ht : ∀ fs, List.Forall₂ (Shows (annotate e) language) fs qs →
      ∃ block, decodeFragments (annotate e) language [] none fs = .ok (t, block)) :
    ReadsBack language e t := by
  obtain ⟨m, hm, hspan, hshows⟩ := locate_expression h
  obtain ⟨block, hblock⟩ := ht _ hshows
  obtain ⟨f, fs, hfragments⟩ : ∃ f fs, m.fragments = f :: fs := by
    cases hfs : m.fragments with
    | nil =>
      rw [hfs] at hshows
      cases hshows
      cases h
    | cons f fs => exact ⟨f, fs, rfl⟩
  refine ⟨m, hm, hspan, hintsOf (annotate e) language m f block, ?_⟩
  rw [hfragments] at hblock
  simp only [decode, hfragments, hblock, Except.map]

namespace SingleLine

variable {h : Hints}

lemma not_mem_parenthesis (hs : SingleLine h) : h.quote ∉ [')'].head? := by
  rcases hs.quote with hq | ⟨-, hq⟩ <;> rw [hq] <;> decide

/-- Several strings are read back, and refused only if they are raw or have comments between. -/
lemma encodeSplit_lossless (hs : SingleLine h) (hseveral : 1 < h.fragmentCount) (t : Text) :
    (∀ e, encodeSplit h t = .ok e → ReadsBack h.language e t) ∧
      (∀ failure, encodeSplit h t = .error failure →
        h.raw = true ∨ h.separatorComments = true) := by
  unfold encodeSplit
  simp only [hs.hasTriple, Bool.false_eq_true, if_false]
  split
  · rename_i hcomment
    exact ⟨fun e he => (nomatch he), fun _ _ => .inr hcomment⟩
  · rename_i hcomment
    obtain ⟨s, hseparator, hjoins⟩ := hs.separator hseveral (by simpa using hcomment)
    rcases mapM_encodeLine h (pieces (lines t)) with ⟨hpieces, hfaults⟩ | ⟨hraw, failure, hpieces⟩
    · simp only [hpieces, hseparator, Option.getD_some, Except.map]
      refine ⟨fun e he => ?_, fun _ hfailure => nomatch hfailure⟩
      obtain rfl := Except.ok.inj he
      have hlines := splitAt_ne_nil '\n' t
      refine readsBack_of_expression
        (hs.expression_pieces hjoins hs.not_mem_parenthesis hlines hfaults) fun fs hfs => ⟨none, ?_⟩
      rw [hs.decodeFragments_pieces hlines hfaults hfs rfl]
      exact congrArg (fun t => Except.ok (t, none)) (unlines_lines t)
    · simp only [hpieces, Except.map]
      exact ⟨fun e he => (nomatch he), fun _ _ => .inl hraw⟩

/-- One string is read back, and refused only if it is raw. -/
lemma encodeLine_lossless (hs : SingleLine h) (t : Text) :
    (∀ e, encodeLine h t = .ok e → ReadsBack h.language e t) ∧
      (∀ failure, encodeLine h t = .error failure → h.raw = true) := by
  rcases encodeLine_eq h t with ⟨hline, hfault⟩ | ⟨hraw, fault, hline⟩
  · rw [hline]
    refine ⟨fun e he => ?_, fun _ hfailure => nomatch hfailure⟩
    obtain rfl := Except.ok.inj he
    refine readsBack_of_expression
      (.last (hs.legible_lineString hfault fun _ => hs.not_mem_parenthesis))
      fun fs hfs => ⟨none, ?_⟩
    obtain ⟨f, _, hf, hnil, rfl⟩ := List.forall₂_cons_right_iff.1 hfs
    obtain rfl := List.forall₂_nil_right_iff.1 hnil
    rw [decodeFragments, hs.decodeFragment_lineString hfault hf]
    rfl
  · rw [hline]
    exact ⟨fun e he => (nomatch he), fun _ _ => hraw⟩

end SingleLine

/-- **Literals on single lines** are read back as the text that was encoded, whatever the text: the
outcome of encoding is found in an annotation as the one literal there, and stands for the text.
Encoding fails for raw literals only, and between comments. -/
theorem encode_singleLine_lossless {buffer : Nat} {language : Language} {marks : Annotations}
    {source : Text} {l : Literal} (hl : .literal l ∈ locate buffer language marks source)
    (htriple : ∀ f ∈ l.fragments, f.style ≠ .triple) {query : Text} {hints : Hints}
    (hdecode : decode source language l = .ok (query, hints)) {style : Style}
    (hpromote : style.promoteTextBlocks = false) (t : Text) :
    (∀ e, encode style hints t = .ok e →
      ∃ m : Literal, locate 0 language {} (annotate e) = [.literal m] ∧
        m.span = ⟨0, bytes "@Query(", bytes "@Query(" + bytes e⟩ ∧
        ∃ hints', decode (annotate e) language m = .ok (t, hints')) ∧
    (∀ failure, encode style hints t = .error failure →
      (∃ f ∈ l.fragments.head?, f.isRaw language = true) ∨
        1 < l.fragments.length ∧
          ∃ s ∈ separators source l.fragments, hasHostComment language s = true) := by
  have hs := singleLine_of_decode hl htriple hdecode
  obtain ⟨f, fs, block, hfragments, -, hhints⟩ := exists_of_decode hdecode
  have hlanguage : hints.language = language := by rw [hhints]; rfl
  have hcount : hints.fragmentCount = l.fragments.length := by rw [hhints]; rfl
  have hraw : hints.raw = true → ∃ f ∈ l.fragments.head?, f.isRaw language = true := fun hraw =>
    ⟨f, by rw [hfragments]; rfl, by rw [hhints] at hraw; exact hraw⟩
  have hcomments : hints.separatorComments = true →
      ∃ s ∈ separators source l.fragments, hasHostComment language s = true := fun hcomments => by
    rw [hhints] at hcomments
    exact List.any_eq_true.1 hcomments
  unfold encode
  simp only [hs.block, hpromote, Bool.false_and, Bool.false_eq_true, if_false]
  split
  · rename_i hseveral
    obtain ⟨hok, herror⟩ := hs.encodeSplit_lossless hseveral t
    rw [hlanguage] at hok
    refine ⟨hok, fun failure hfailure => ?_⟩
    rcases herror failure hfailure with hr | hcomment
    · exact .inl (hraw hr)
    · exact .inr ⟨hcount ▸ hseveral, hcomments hcomment⟩
  · obtain ⟨hok, herror⟩ := hs.encodeLine_lossless t
    rw [hlanguage] at hok
    exact ⟨hok, fun failure hfailure => .inl (hraw (herror failure hfailure))⟩

/-- Two Python strings side by side, with different quotes, take a quote and a line feed. -/
theorem encode_singleLine_lossless_side_by_side :
    ∃ (l : Literal) (hints : Hints),
      .literal l ∈ locate 0 .python {} "@Query('a' \"b\")" ∧
      (∀ f ∈ l.fragments, f.style ≠ .triple) ∧
      decode "@Query('a' \"b\")" .python l = .ok ("a b", hints) ∧
      encode {} hints "a'\nb" = .ok "'a\\'\\n' 'b'" ∧
      ∃ m : Literal, locate 0 .python {} (annotate "'a\\'\\n' 'b'") = [.literal m] ∧
        m.span = ⟨0, bytes "@Query(", bytes "@Query(" + bytes "'a\\'\\n' 'b'"⟩ ∧
        ∃ hints', decode (annotate "'a\\'\\n' 'b'") .python m = .ok ("a'\nb", hints') := by
  let l : Literal := ⟨"Query", ⟨0, 7, 14⟩,
    [⟨⟨0, 7, 10⟩, ⟨0, 8, 9⟩, .single, [], "'", some .juxtaposition⟩,
      ⟨⟨0, 11, 14⟩, ⟨0, 12, 13⟩, .double, [], "\"", none⟩], .jpql⟩
  let hints : Hints := ⟨.python, .single, [], "'", false, 2, some " ".toList, false, false, none,
    [], false⟩
  have hl : .literal l ∈ locate 0 .python {} "@Query('a' \"b\")" := by decide +kernel
  have htriple : ∀ f ∈ l.fragments, f.style ≠ .triple := by decide
  have hdecode : decode "@Query('a' \"b\")" .python l = .ok ("a b", hints) := by decide +kernel
  have hencode : encode {} hints "a'\nb" = .ok "'a\\'\\n' 'b'" := by decide +kernel
  exact ⟨l, hints, hl, htriple, hdecode, hencode,
    (encode_singleLine_lossless hl htriple hdecode rfl "a'\nb").1 _ hencode⟩

end SqlInlay.Host
