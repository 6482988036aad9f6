import SqlInlay.Proofs.Host.Chunks
import SqlInlay.Proofs.Host.Enclosed
import SqlInlay.Proofs.Host.RoundTrip
import SqlInlay.Proofs.Sql.Lossless

/-!
# Triple-quoted literals

A layout that is encoded as a triple-quoted literal is found again, but not always read as it was:
`encode_block_lossless_iff` says that it is if its block `Keeps` it, and only then.  What may be
lost are blanks, and where a query has a string with a line break in it these are not for
decoration.

**Hints.**  `OneBlock` is what decoding a triple-quoted literal says about it: letters and quotes
that a block may be written with, and a layout that could be read again.
`exists_oneBlock_of_decode` gets it from a literal that was found and decoded.

**The block** (`blockString`) is legible, for what closes it is escaped or refused elsewhere
(`OneBlock.legible_blockString`).  It is read as the text without its margin (`strip_layOut_iff`),
where escapes stand for the characters that they are written for (`exists_reads_of_thinned`).

* `OneBlock.exists_decodeFragment_raw` — a raw block stands for what it is without its margin.
* `OneBlock.exists_decodeFragment_escaped` — an escaped one for what can be read in it.  The margin
  is taken off before escapes are read, so an escape keeps a blank that would else be lost.
* `OneBlock.exists_decodeFragment_blockString` — either way it is the text that was written if the
  layout keeps it, and only then.
-/

namespace SqlInlay.Host

open SqlInlay.Text

/-! ## What hints say -/

/-- Hints at a literal that is written as one block.  Decoding gives such hints, and promotion makes
them of hints at a string. -/
structure OneBlock (h : Hints) (block : BlockLayout) : Prop where
  quotes : Quotes h.language h.marker h.delimiter
  delimiter : h.delimiter = [h.quote, h.quote, h.quote]
  raw : h.raw = (hasRawLetter h.marker || h.language == .kotlin)
  layout : h.block = some block
  sound : block.Sound
  single : h.fragmentCount = 1
  lineIndent : isBlankText h.lineIndent = true
  lineIndentLine : '\n' ∉ h.lineIndent

/-- The indentation of a line is blanks. -/
lemma mem_lineIndentAt {source : Text} {offset : Nat} {c : Char}
    (h : c ∈ lineIndentAt source offset) : c = ' ' ∨ c = '\t' := by
  simpa using List.mem_takeWhile_imp h

lemma isBlankText_lineIndentAt (source : Text) (offset : Nat) :
    isBlankText (lineIndentAt source offset) = true := by
  refine List.all_eq_true.2 fun c hc => ?_
  rcases mem_lineIndentAt hc with rfl | rfl <;> rfl

lemma not_mem_lineIndentAt (source : Text) (offset : Nat) :
    '\n' ∉ lineIndentAt source offset := by
  intro hmem
  rcases mem_lineIndentAt hmem with h | h <;> exact absurd h (by decide)

/-- A line that is indented once more has a margin that can be read. -/
lemma sound_margin {indentation : Text} (hblank : isBlankText indentation = true)
    (hline : '\n' ∉ indentation) (style : Style) :
    BlockLayout.Sound ⟨indentation ++ style.indent, true, true, indentation ++ style.indent⟩ := by
  have hblank' : isBlankText (indentation ++ style.indent) = true := by
    rw [isBlankText_append, hblank]
    refine List.all_eq_true.2 fun c hc => ?_
    rw [List.eq_of_mem_replicate hc]
    rfl
  have hline' : '\n' ∉ indentation ++ style.indent := by
    rw [List.mem_append, not_or]
    exact ⟨hline, fun hmem => absurd (List.eq_of_mem_replicate hmem) (by decide)⟩
  exact ⟨hblank', hblank', hline', hline', fun _ => List.prefix_rfl⟩

/-- The layout of a triple-quoted fragment. -/
lemma layout_of_decodeFragment {source : Text} {language : Language} {f : Fragment}
    (htriple : f.style = .triple) {t : Text} {layout : Option BlockLayout}
    (h : decodeFragment source language f = .ok (t, layout)) :
    layout = some (strip (f.content.of source) (language == .java)).2 := by
  unfold decodeFragment at h
  simp only [htriple, if_true] at h
  split at h
  · cases h
  · split at h
    · cases h
      rfl
    · generalize unescape language f.content.start
        (strip (f.content.of source) (language == .java)).1 = read at h
      cases read with
      | error failure => cases h
      | ok t' =>
        cases h
        rfl

/-- What decoding one triple-quoted fragment says about it.  The hints that are handed to the
encoder hold the layout that the content was stripped of, and this layout is sound. -/
lemma exists_oneBlock_of_decode {buffer : Nat} {language : Language} {marks : Annotations}
    {source : Text} {l : Literal} (hl : .literal l ∈ locate buffer language marks source)
    {f : Fragment} (hf : l.fragments = [f]) (htriple : f.style = .triple) {query : Text}
    {hints : Hints} (h : decode source language l = .ok (query, hints)) :
    ∃ block, OneBlock hints block ∧ hints.language = language := by
  obtain ⟨first, last, -, hstands⟩ := exists_standsAt hl
  obtain ⟨g, fs, block, hfragments, hdecoded, rfl⟩ := exists_of_decode h
  obtain ⟨rfl, rfl⟩ : f = g ∧ [] = fs := List.cons.inj (hf.symm.trans hfragments)
  obtain ⟨hwritten, hstyle⟩ := hstands.fragments.quotes f (by simp [hf])
  have hthree : Quoted.isTriple ⟨f.marker, f.delimiter, []⟩ = true :=
    Quoted.style_eq_triple.1 (hstyle.symm.trans htriple)
  have hblock : block = some (strip (f.content.of source) (language == .java)).2 := by
    rw [hf, decodeFragments] at hdecoded
    cases hfragment : decodeFragment source language f with
    | error failure =>
      rw [hfragment] at hdecoded
      cases hdecoded
    | ok decoded =>
      obtain ⟨t, layout⟩ := decoded
      rw [hfragment] at hdecoded
      obtain rfl := layout_of_decodeFragment htriple hfragment
      cases hdecoded
      rfl
  obtain ⟨q, -, hdelimiter⟩ := hwritten.delimiter
  have hdelimiter : f.delimiter = [q, q, q] := by
    refine hdelimiter.resolve_left ?_
    intro hone
    simp [Quoted.isTriple, hone] at hthree
  refine ⟨_, ⟨hwritten, ?_, ?_, hblock, sound_strip _ _, ?_, isBlankText_lineIndentAt _ _,
    not_mem_lineIndentAt _ _⟩, rfl⟩
  · simp [hintsOf, Hints.quote, hdelimiter]
  · have hstyle : (QuoteStyle.triple == .raw) = false := rfl
    simp [hintsOf, Fragment.isRaw, htriple, hstyle]
  · simp [hintsOf, hf]

/-! ## The block -/

/-- No blank makes a template. -/
lemma not_isBlank_of_startsTemplate {c : Char} (h : startsTemplate (some c) = true) :
    isBlank c = false := by
  by_contra hblank
  have hidle := forall_isIdle (p := fun c => !startsTemplate (some c)) (by decide +kernel)
    (isIdle_of_isBlank (by simpa using hblank))
  simp [h] at hidle

/-- What is laid out between the quotes. -/
def blockBody (h : Hints) (block : BlockLayout) (t : Text) : Text :=
  if h.raw then t
  else escape ⟨h.language, h.quote, true, !block.closesOnOwnLine, h.unicodeEscapes⟩ t

/-- The string that a text is written as. -/
def blockString (h : Hints) (block : BlockLayout) (t : Text) : Quoted :=
  ⟨h.marker, h.delimiter, layOut (blockBody h block t) block⟩

/-- A text that is encoded is laid out and enclosed. -/
lemma encodeBlock_eq_ok {style : Style} {h : Hints} {block : BlockLayout} {t e : Text}
    (he : encodeBlock style h block t = .ok e) :
    e = (blockString h (blockFor style h block t) t).source ∧
      (h.raw = true → rawBlockFault? h (blockFor style h block t) t = none) := by
  unfold encodeBlock at he
  unfold blockString blockBody Quoted.source
  simp only at he ⊢
  by_cases hraw : h.raw = true
  · simp only [hraw, if_true] at he ⊢
    split at he
    · cases he
    · rename_i hfault
      exact ⟨(Except.ok.inj he).symm, fun _ => hfault⟩
  · simp only [hraw, Bool.false_eq_true, if_false] at he ⊢
    exact ⟨(Except.ok.inj he).symm, fun h => h.elim⟩

namespace OneBlock

variable {h : Hints} {block : BlockLayout}

lemma quote (hb : OneBlock h block) : h.quote = '"' ∨ h.language = .python ∧ h.quote = '\'' := by
  have hquote := hb.quotes.quote_cases
  rw [hb.delimiter] at hquote
  simpa using hquote

/-- A block is written in a layout that could be read. -/
lemma sound_blockFor (hb : OneBlock h block) (style : Style) (t : Text) :
    (blockFor style h block t).Sound := by
  unfold blockFor
  simp only
  split
  · split
    · exact sound_margin hb.lineIndent hb.lineIndentLine style
    · exact ⟨hb.sound.margin, hb.sound.closing, hb.sound.marginLine, hb.sound.closingLine,
        hb.sound.closingMargin⟩
  · exact hb.sound

/-- Java has no raw blocks. -/
lemma language_of_raw (hb : OneBlock h block) (hraw : h.raw = true) :
    h.language = .kotlin ∨ h.language = .python := by
  cases hlanguage : h.language with
  | kotlin => exact .inl rfl
  | python => exact .inr rfl
  | java =>
    have hmarker := hb.quotes.python (by rw [hlanguage]; decide)
    rw [hb.raw, hmarker, hlanguage] at hraw
    cases hraw

lemma raw_of_kotlin (hb : OneBlock h block) (hlanguage : h.language = .kotlin) :
    h.raw = true := by
  rw [hb.raw, hlanguage, Bool.or_eq_true]
  exact .inr rfl

lemma isTriple (hb : OneBlock h block) :
    (ContentRule.of h.language h.delimiter).IsTriple h.quote where
  quote := hb.quote.imp id And.right
  delimiter := hb.delimiter
  multiline := by
    rw [hb.delimiter]
    rfl
  templates := by
    rw [hb.delimiter]
    simp [ContentRule.of]

/-- **The content of a block** is read up to its closing quotes, whatever the layout and the text
are.  For a raw block it is asked that writing found no fault with the text. -/
lemma content?_blockString (hb : OneBlock h block) {written : BlockLayout} (hsound : written.Sound)
    {t : Text} (ht : h.raw = true → rawBlockFault? h written t = none) {rest : Text}
    (hrest : '"' ∉ rest.head?) :
    content? (.of h.language h.delimiter)
        (layOut (blockBody h written t) written ++ (h.delimiter ++ rest)) =
      some (layOut (blockBody h written t) written) := by
  have hrule := hb.isTriple
  have hlast : (ContentRule.of h.language h.delimiter).lastQuotes = (h.language == .kotlin) := by
    rw [hb.delimiter]
    simp [ContentRule.of]
  have hescapes : (ContentRule.of h.language h.delimiter).escapes = !(h.language == .kotlin) := by
    rw [hb.delimiter]
    simp [ContentRule.of]
  generalize ContentRule.of h.language h.delimiter = rule at hrule hlast hescapes ⊢
  rw [hb.delimiter]
  unfold blockBody
  by_cases hraw : h.raw = true
  · have hfault := ht hraw
    unfold rawBlockFault? at hfault
    split_ifs at hfault with hcontains htemplate hend
    rw [contains_iff, hb.delimiter] at hcontains
    rw [if_pos hraw]
    rcases hb.language_of_raw hraw with hlanguage | hlanguage
    · have hquote : h.quote = '"' := by
        refine hb.quote.resolve_right ?_
        rw [hlanguage]
        simp
      rw [hquote] at hrule hcontains ⊢
      exact content?_plainBlock hrule (by rw [hescapes, hlanguage]; rfl)
        (by rw [hlast, hlanguage]; rfl) hsound hcontains hrest
    · refine content?_rawBlock hrule (by rw [hlast, hlanguage]; rfl) hsound hcontains ?_ rest
      intro hinside
      simp only [hlanguage, hinside, Bool.not_false, true_and, not_or] at hend
      exact ⟨hend.2, hend.1⟩
  · have hlanguage : (h.language == .kotlin) = false := by
      rw [beq_eq_false_iff_ne]
      exact fun hkotlin => hraw (hb.raw_of_kotlin hkotlin)
    rw [if_neg hraw]
    exact content?_escapedBlock hrule (by rw [hescapes, hlanguage]; rfl)
      (hlast.trans hlanguage) hsound rfl t rest

/-- **A block** is read back as the string that was written.  The quote that must not follow is the
one that would lengthen the closing quotes. -/
lemma legible_blockString (hb : OneBlock h block) {written : BlockLayout} (hsound : written.Sound)
    {t : Text} (ht : h.raw = true → rawBlockFault? h written t = none) {rest : Text}
    (hrest : '"' ∉ rest.head?) : Legible h.language (blockString h written t) rest where
  plain := hb.quotes.refusal? _
  quoted before hbefore := by
    have hcontent := hb.content?_blockString hsound ht hrest
    have hsource : (blockString h written t).source ++ rest =
        h.marker ++ (h.delimiter ++ (layOut (blockBody h written t) written ++
          (h.delimiter ++ rest))) := by
      simp [blockString, Quoted.source]
    rw [hsource]
    refine quoted?_of_content? hb.quotes hcontent ?_ hbefore
    rw [hb.delimiter]
    exact Quotes.delimiter?_triple hb.quote _

/-- The string is found as a fragment of three quotes. -/
lemma style_of_shows (hb : OneBlock h block) {written : BlockLayout} {t source : Text}
    {f : Fragment} (hf : Shows source h.language f (blockString h written t)) :
    f.style = .triple ∧ f.isRaw h.language = h.raw := by
  have htriple : f.style = .triple := by
    rw [hf.style, Quoted.style_eq_triple]
    simp [Quoted.isTriple, blockString, hb.delimiter]
  refine ⟨htriple, ?_⟩
  have hstyle : (QuoteStyle.triple == .raw) = false := rfl
  have hmarker : f.marker = h.marker := hf.marker
  simp [hb.raw, Fragment.isRaw, htriple, hstyle, hmarker]

/-- No template comes into a raw text by laying it out. -/
lemma templateFrom?_layOut {written : BlockLayout} (hsound : written.Sound) {t : Text}
    (ht : rawBlockFault? h written t = none) (hlanguage : h.language = .kotlin) (offset : Nat) :
    templateFrom? true offset (layOut t written) = none := by
  unfold rawBlockFault? at ht
  split_ifs at ht with hcontains htemplate hend
  simp only [hlanguage, true_and, Bool.not_eq_true, Option.isSome_eq_false_iff,
    Option.isNone_iff_eq_none] at htemplate
  rw [templateFrom?_eq_none_iff] at htemplate ⊢
  intro d hd hholds
  have hsolid : ∀ c ∈ ['$', d], isBlank c = false := by
    simpa [not_isBlank_of_startsTemplate hd] using (by decide : isBlank '$' = false)
  exact htemplate d hd ((thinned_layOut hsound t).infix_of hsolid hholds)

/-- A raw block stands for what it is without its margin. -/
lemma exists_decodeFragment_raw (hb : OneBlock h block) (hraw : h.raw = true)
    {written : BlockLayout} (hsound : written.Sound) {t : Text} (hunbroken : Unbroken t)
    (ht : rawBlockFault? h written t = none) :
    ∃ s, (s = t ↔ Keeps written t) ∧
      ∀ source f, Shows source h.language f (blockString h written t) →
        ∃ layout, decodeFragment source h.language f = .ok (s, layout) := by
  have hjava : (h.language == .java) = false := by
    rcases hb.language_of_raw hraw with hlanguage | hlanguage <;> rw [hlanguage] <;> rfl
  refine ⟨(strip (layOut t written) false).1, strip_layOut_iff hunbroken hsound fun l _ => rfl, ?_⟩
  intro source f hf
  obtain ⟨htriple, hisRaw⟩ := hb.style_of_shows hf
  have hcontent : f.content.of source = layOut t written := by
    have hcontent : f.content.of source = layOut (blockBody h written t) written := hf.content
    rwa [blockBody, if_pos hraw] at hcontent
  have htemplate : (if h.language = .kotlin then
      templateFrom? true f.content.start (layOut t written) else none) = none := by
    split
    · rename_i hlanguage
      exact templateFrom?_layOut hsound ht hlanguage _
    · rfl
  refine ⟨some (strip (layOut t written) false).2, ?_⟩
  unfold decodeFragment
  simp only [hisRaw, hcontent, htriple, htemplate, hraw, hjava, if_true]

/-- An escaped block stands for what can be read in it without its margin.  This is the text that
was put into it exactly where its blank lines and its margin are kept.  The escapes do not come into
it, for reading undoes them. -/
lemma exists_decodeFragment_escaped (hb : OneBlock h block) (hraw : h.raw = false)
    {written : BlockLayout} (hsound : written.Sound) {t : Text} (hunbroken : Unbroken t) :
    ∃ s, (s = t ↔ Keeps written (blockBody h written t)) ∧
      ∀ source f, Shows source h.language f (blockString h written t) →
        ∃ layout, decodeFragment source h.language f = .ok (s, layout) := by
  have hkotlin : h.language ≠ .kotlin := by
    intro hkotlin
    rw [hb.raw_of_kotlin hkotlin] at hraw
    cases hraw
  obtain ⟨rule, hbody, hlanguage, hquote, hblock⟩ : ∃ rule : EscapeRule,
      blockBody h written t = escape rule t ∧ rule.language = h.language ∧
        (rule.quote = '"' ∨ rule.quote = '\'') ∧ rule.block = true :=
    ⟨_, if_neg (by simp [hraw]), rfl, hb.quote.imp id And.right, rfl⟩
  have hescape := hunbroken.escape hquote
  have hkeeps := strip_layOut_iff hescape hsound (readLine_of_mem_lines_escape hquote hblock t)
  obtain ⟨s, hreads, -, hsame⟩ := exists_reads_of_thinned rule hquote
    (thinned_strip_layOut hescape hsound (rule.language == .java))
  rw [hlanguage] at hkeeps hreads hsame
  refine ⟨s, ?_, fun source f hf => ?_⟩
  · rw [hbody, ← hkeeps]
    constructor
    · rintro rfl
      exact hsame rfl
    · intro heq
      have hback := reads_escape rule hquote t 0
      rw [hlanguage, ← heq, hreads 0] at hback
      exact Except.ok.inj hback
  · obtain ⟨htriple, hisRaw⟩ := hb.style_of_shows hf
    have hcontent : f.content.of source = layOut (escape rule t) written := by
      rw [← hbody]
      exact hf.content
    refine ⟨some (strip (layOut (escape rule t) written) (h.language == .java)).2, ?_⟩
    unfold decodeFragment
    simp only [hisRaw, hcontent, htriple, hkotlin, hraw, if_true, if_false, Bool.false_eq_true,
      hreads _, Except.map]

/-- **What a block stands for** is the text that was written if the layout keeps it, and only
then. -/
lemma exists_decodeFragment_blockString (hb : OneBlock h block) {written : BlockLayout}
    (hsound : written.Sound) {t : Text} (hunbroken : Unbroken t)
    (ht : h.raw = true → rawBlockFault? h written t = none) :
    ∃ s, (s = t ↔ Keeps written (blockBody h written t)) ∧
      ∀ source f, Shows source h.language f (blockString h written t) →
        ∃ layout, decodeFragment source h.language f = .ok (s, layout) := by
  cases hraw : h.raw with
  | true =>
    have hbody : blockBody h written t = t := if_pos hraw
    rw [hbody]
    exact hb.exists_decodeFragment_raw hraw hsound hunbroken (ht hraw)
  | false => exact hb.exists_decodeFragment_escaped hraw hsound hunbroken

end OneBlock

/-! ## The round trip -/

/-- What a query is laid out as neither starts nor ends with a line break. -/
lemma unbroken_of_formatQuery {style : Style} {dialect : Sql.Dialect} {query t : Text}
    (h : Sql.formatQuery style dialect query = .ok t) : Unbroken t := by
  have hspacing : ∀ c : Char, Sql.isSpacing c = false → c ≠ '\n' ∧ c ≠ '\r' := by
    intro c hc
    constructor <;> rintro rfl <;> exact absurd hc (by decide)
  by_cases hne : t = []
  · subst hne
    exact ⟨by simp, by simp⟩
  · have hsolid := Sql.solid_of_formatQuery h hne
    exact ⟨fun c hc => hspacing c (hsolid.head c hc), fun c hc => hspacing c (hsolid.last c hc)⟩

/-- **Layouts in triple quotes.**  What encoding a layout as a triple-quoted literal gives is found
in an annotation as the one literal there and decoded.  It stands for the layout if the block keeps
what is written in it, and for something else if not: if the block takes a carriage return for a
part of a line break, a blank line for an empty one or for that of the quotes, or an indentation
for its margin. -/
theorem encode_block_lossless_iff {buffer : Nat} {language : Language} {marks : Annotations}
    {source : Text} {l : Literal} (hl : .literal l ∈ locate buffer language marks source)
    {f : Fragment} (hf : l.fragments = [f]) (htriple : f.style = .triple) {query : Text}
    {hints : Hints} (hdecode : decode source language l = .ok (query, hints)) {format : Style}
    {dialect : Sql.Dialect} {q t : Text} (ht : Sql.formatQuery format dialect q = .ok t)
    {style : Style} {e : Text} (hencode : encode style hints t = .ok e) :
    ∃ block written, hints.block = some block ∧ written = blockFor style hints block t ∧
      ∃ m : Literal, locate 0 language {} (annotate e) = [.literal m] ∧
        m.span = ⟨0, bytes "@Query(", bytes "@Query(" + bytes e⟩ ∧
        ∃ s hints', decode (annotate e) language m = .ok (s, hints') ∧
          (s = t ↔ Keeps written (blockBody hints written t)) := by
  obtain ⟨block, hb, hlanguage⟩ := exists_oneBlock_of_decode hl hf htriple hdecode
  have hblock : encodeBlock style hints block t = .ok e := by
    rw [encode, if_neg (by rw [hb.single]; decide), hb.layout] at hencode
    exact hencode
  obtain ⟨rfl, hfault⟩ := encodeBlock_eq_ok hblock
  have hsound := hb.sound_blockFor style t
  have hunbroken := unbroken_of_formatQuery ht
  obtain ⟨s, hkeeps, hread⟩ := hb.exists_decodeFragment_blockString hsound hunbroken hfault
  have hlegible : Legible hints.language
      (blockString hints (blockFor style hints block t) t) [')'] :=
    hb.legible_blockString hsound hfault (by decide)
  have hback : ReadsBack hints.language
      (blockString hints (blockFor style hints block t) t).source s := by
    refine readsBack_of_expression (Expression.last hlegible) ?_
    intro fs hfs
    obtain ⟨g, _, hg, hnil, rfl⟩ := List.forall₂_cons_right_iff.1 hfs
    obtain rfl := List.forall₂_nil_right_iff.1 hnil
    obtain ⟨layout, hg⟩ := hread _ g hg
    exact ⟨none <|> layout, by rw [decodeFragments, hg]; rfl⟩
  rw [hlanguage] at hback
  obtain ⟨m, hm, hspan, hints', hdecoded⟩ := hback
  exact ⟨block, _, hb.layout, rfl, m, hm, hspan, s, hints', hdecoded, hkeeps⟩

/-- A Java text block takes a layout of several lines, behind its margin. -/
theorem encode_block_lossless_iff_text_block :
    ∃ (l : Literal) (f : Fragment) (hints : Hints),
      .literal l ∈ locate 0 .java {} "  @Query(\"\"\"\n    x\"\"\")" ∧
      l.fragments = [f] ∧ f.style = .triple ∧
      decode "  @Query(\"\"\"\n    x\"\"\")" .java l = .ok ("x", hints) ∧
      Sql.formatQuery {} .jpql "select a, b" = .ok "SELECT\n    a,\n    b" ∧
      encode {} hints "SELECT\n    a,\n    b" =
        .ok "\"\"\"\n    SELECT\n        a,\n        b\"\"\"" ∧
      ∃ (m : Literal) (hints' : Hints),
        locate 0 .java {} (annotate "\"\"\"\n    SELECT\n        a,\n        b\"\"\"") =
          [.literal m] ∧
        decode (annotate "\"\"\"\n    SELECT\n        a,\n        b\"\"\"") .java m =
          .ok ("SELECT\n    a,\n    b", hints') := by
  let f : Fragment := ⟨⟨0, 9, 21⟩, ⟨0, 12, 18⟩, .triple, [], "\"\"\"", none⟩
  let l : Literal := ⟨"Query", ⟨0, 9, 21⟩, [f], .jpql⟩
  let hints : Hints := ⟨.java, .triple, [], "\"\"\"", false, 1, none, false, true,
    some ⟨"    ".toList, true, false, []⟩, "  ", false⟩
  have hl : .literal l ∈ locate 0 .java {} "  @Query(\"\"\"\n    x\"\"\")" := by
    decide +kernel
  have hdecode : decode "  @Query(\"\"\"\n    x\"\"\")" .java l = .ok ("x", hints) := by
    decide +kernel
  have hformat : Sql.formatQuery {} .jpql "select a, b" = .ok "SELECT\n    a,\n    b" := by
    decide +kernel
  have hencode : encode {} hints "SELECT\n    a,\n    b" =
      .ok "\"\"\"\n    SELECT\n        a,\n        b\"\"\"" := by
    decide +kernel
  refine ⟨l, f, hints, hl, rfl, rfl, hdecode, hformat, hencode, ?_⟩
  obtain ⟨block, written, hblock, rfl, m, hm, -, s, hints', hread, hkeeps⟩ :=
    encode_block_lossless_iff hl rfl rfl hdecode hformat hencode
  cases hblock
  obtain rfl := hkeeps.2 (by decide +kernel)
  exact ⟨m, hints', hm, hread⟩

/-- A Kotlin raw string takes a layout with a blank line in a string, which is read as an empty
line. -/
theorem encode_block_not_lossless :
    ∃ (l m : Literal) (hints hints' : Hints),
      .literal l ∈ locate 0 .kotlin {} "@Query(\"\"\"x\"\"\")" ∧
      l.fragments.map (·.style) = [.triple] ∧
      decode "@Query(\"\"\"x\"\"\")" .kotlin l = .ok ("x", hints) ∧
      Sql.formatQuery {} .jpql "select 'a\n   \nb'" = .ok "SELECT 'a\n   \nb'" ∧
      encode {} hints "SELECT 'a\n   \nb'" = .ok "\"\"\"SELECT 'a\n   \nb'\"\"\"" ∧
      locate 0 .kotlin {} (annotate "\"\"\"SELECT 'a\n   \nb'\"\"\"") = [.literal m] ∧
      decode (annotate "\"\"\"SELECT 'a\n   \nb'\"\"\"") .kotlin m =
        .ok ("SELECT 'a\n\nb'", hints') := by
  let l : Literal := ⟨"Query", ⟨0, 7, 14⟩,
    [⟨⟨0, 7, 14⟩, ⟨0, 10, 11⟩, .triple, [], "\"\"\"", none⟩], .jpql⟩
  let m : Literal := ⟨"Query", ⟨0, 7, 29⟩,
    [⟨⟨0, 7, 29⟩, ⟨0, 10, 26⟩, .triple, [], "\"\"\"", none⟩], .jpql⟩
  let hints : Hints := ⟨.kotlin, .triple, [], "\"\"\"", true, 1, none, false, true,
    some ⟨[], false, false, []⟩, [], false⟩
  exact ⟨l, m, hints, hints, by decide +kernel, rfl, by decide +kernel, by decide +kernel,
    by decide +kernel, by decide +kernel, by decide +kernel⟩

end SqlInlay.Host
