import Mathlib.Data.Bool.AllAny
import SqlInlay.Proofs.Host.Encodings

/-!
# Blocks of any text

Layouts are not the only texts that are written between triple quotes, and two things can be said of
a block whatever the text is.

**Closing.**  A triple-quoted literal that is written again is read up to its last quote and no
further, wherever no quote follows: `encode_triple_legible`.  Nothing of the text can close it
early, and nothing behind it can be drawn in.  `OneBlock.legible_blockString` says so for each kind
of block; what is left here is to tell that a literal of one triple-quoted fragment is such a block.

**Promotion.**  A string that becomes a text block stands between a line of the opening quotes and a
line of the closing quotes, all behind one margin, so its margin is never in doubt.

* `strip_layOut_enclosed` is about taking such a block out of its margin: every text without
  carriage returns comes back whose lines are empty or not blank.
* Escaping leaves no carriage returns, for they are escaped, and no line of blanks either.  The last
  space of a line is escaped, and so is every control character among the blanks; only a line made
  of blanks some of which are beyond ASCII may stay as it is (`lines_escape_blank`).
* So promotion is undone by decoding, as `encode_promoted_lossless` says.  The lines that it
  excludes are read as empty ones.
-/

namespace SqlInlay.Host

open SqlInlay.Text

/-! ## Closing

What follows the literal must not start with a double quote, for the quotes at the end of a raw
block would run together with it.  Nothing else is asked of the text behind, nor of the text
written.
-/

/-- **A triple-quoted literal that is written again** is read as a string with the letters and the
quotes of the old one, from its start to its end, for every text and wherever no quote follows. -/
theorem encode_triple_legible {buffer : Nat} {language : Language} {marks : Annotations}
    {source : Text} {l : Literal} (hl : .literal l ∈ locate buffer language marks source)
    {f : Fragment} (hf : l.fragments = [f]) (htriple : f.style = .triple) {query : Text}
    {hints : Hints} (hdecode : decode source language l = .ok (query, hints)) {style : Style}
    {t e : Text} (hencode : encode style hints t = .ok e) {rest : Text}
    (hrest : '"' ∉ rest.head?) {before : Option Char}
    (hbefore : before.any isHostWordChar = false) :
    ∃ q : Quoted, quoted? language before (e ++ rest) = some (some q) ∧ q.source = e ∧
      q.marker = f.marker ∧ q.delimiter = f.delimiter ∧ q.style language = .triple := by
  obtain ⟨block, hb, hlanguage⟩ := exists_oneBlock_of_decode hl hf htriple hdecode
  obtain ⟨g, fs, layout, hfragments, -, hhints⟩ := exists_of_decode hdecode
  obtain ⟨rfl, rfl⟩ : f = g ∧ [] = fs := List.cons.inj (hf.symm.trans hfragments)
  have hblock : encodeBlock style hints block t = .ok e := by
    rw [encode, if_neg (by rw [hb.single]; decide), hb.layout] at hencode
    exact hencode
  obtain ⟨rfl, hfault⟩ := encodeBlock_eq_ok hblock
  have hlegible := hb.legible_blockString (hb.sound_blockFor style t) hfault hrest
  rw [hlanguage] at hlegible
  refine ⟨_, hlegible.quoted before hbefore, rfl, by rw [hhints]; rfl, by rw [hhints]; rfl, ?_⟩
  rw [Quoted.style_eq_triple]
  simp [Quoted.isTriple, blockString, hb.delimiter]

/-- A Python block takes a run of four quotes, and two quotes in front of the closing ones. -/
theorem encode_triple_legible_runs :
    ∃ (l : Literal) (f : Fragment) (hints : Hints),
      .literal l ∈ locate 0 .python {} "@Query('''x''')" ∧ l.fragments = [f] ∧
      f.style = .triple ∧ decode "@Query('''x''')" .python l = .ok ("x", hints) ∧
      encode {} hints "a '''' b''" = .ok "'''a ''\\'' b'\\''''" ∧
      ∃ q : Quoted, quoted? .python none ("'''a ''\\'' b'\\''''" ++ [')']) = some (some q) ∧
        q.source = "'''a ''\\'' b'\\''''" ∧ q.marker = f.marker ∧ q.delimiter = f.delimiter ∧
        q.style .python = .triple := by
  let f : Fragment := ⟨⟨0, 7, 14⟩, ⟨0, 10, 11⟩, .triple, [], "'''", none⟩
  let l : Literal := ⟨"Query", ⟨0, 7, 14⟩, [f], .jpql⟩
  let hints : Hints := ⟨.python, .triple, [], "'''", false, 1, none, false, true,
    some ⟨[], false, false, []⟩, [], false⟩
  have hl : .literal l ∈ locate 0 .python {} "@Query('''x''')" := by decide +kernel
  have hdecode : decode "@Query('''x''')" .python l = .ok ("x", hints) := by decide +kernel
  have hencode : encode {} hints "a '''' b''" = .ok "'''a ''\\'' b'\\''''" := by decide +kernel
  exact ⟨l, f, hints, hl, rfl, rfl, hdecode, hencode,
    encode_triple_legible hl rfl rfl hdecode hencode (by decide) rfl⟩

/-! ## Promotion

Lines between those of the quotes are put behind the margin, the closing quotes stand at the margin,
and the margin of such a block is found again.  What remains to be shown is that no line of the
escaped text is blank without being empty.
-/

/-- Lines between a line of the opening quotes and a line of the closing quotes are found again. -/
lemma division_enclosed {block : BlockLayout} (hblock : block.Sound)
    (hopens : block.opensOnNewLine = true) (hcloses : block.closesOnOwnLine = true) {t : Text}
    (hreturns : '\r' ∉ t) :
    Division block (lines t) (lines (dropReturns (layOut t block))) [[]] [] (lines t)
      ((lines t).map (indented block.margin)) [block.closingIndent] := by
  have hchop : ((lines t).map (indented block.margin)).map chop =
      (lines t).map (indented block.margin) := by
    rw [List.map_map]
    refine List.map_congr_left fun l hl => ?_
    have hl : chop l = l :=
      chop_of_getLast? fun c hc heq =>
        hreturns (heq ▸ subset_of_mem_lines hl (List.mem_of_getLast? hc))
    cases l with
    | nil => rfl
    | cons c l => exact (chop_append (List.cons_ne_nil c l)).trans (congrArg _ hl)
  obtain ⟨first, ls, hlines⟩ := List.exists_cons_of_ne_nil (lines_ne_nil t)
  have hlaid : layOutLines block (lines t) = (lines t).map (indented block.margin) := by
    rw [hlines, layOutLines, if_pos hopens, List.map_cons]
  have hall : lines (dropReturns (layOut t block)) =
      [] :: ((lines t).map (indented block.margin) ++ [block.closingIndent]) := by
    rw [lines_dropReturns, lines_layOut hblock, BlockLayout.openingLines, if_pos hopens,
      BlockLayout.closingLines, if_pos hcloses, hlaid, List.singleton_append,
      chopped_cons (List.append_ne_nil_of_right_ne_nil _ (List.cons_ne_nil _ _)), chopped_concat,
      hchop]
    rfl
  refine ⟨⟨hall, .inl ⟨?_, rfl, rfl⟩, .inl ⟨_, rfl, hblock.closing⟩⟩, ?_, ?_, .refl _,
    .inl ⟨rfl, by rw [hopens]; rfl, ?_, by simp⟩⟩
  · rw [hall]
    simp [startsBehindBlank, isBlankText]
  · rw [List.forall₂_map_right_iff, List.forall₂_same]
    exact fun l _ => .indented hblock.margin l
  · simpa using hblock.closingMargin hcloses
  · rw [BlockLayout.closingLines, if_pos hcloses]

/-- **A block with lines of its own for its quotes**, the closing ones at the margin, keeps every
text whose lines are empty or not blank.  The closing line makes the margin what it was, so the
indents of the text itself do not matter. -/
lemma strip_layOut_enclosed {block : BlockLayout} (hblock : block.Sound)
    (hopens : block.opensOnNewLine = true) (hcloses : block.closesOnOwnLine = true)
    (hclosing : block.closingIndent = block.margin) {t : Text} (hreturns : '\r' ∉ t)
    (hsolid : ∀ l ∈ lines t, l ≠ [] → isBlankText l = false) {stripTrailing : Bool}
    (hread : ∀ l ∈ lines t, readLine stripTrailing l = l) :
    (strip (layOut t block) stripTrailing).1 = t := by
  have hmargin : KeepsMargin block (lines t) := by
    obtain ⟨m, hm⟩ := exists_marginOf (some []) (countedLines block (lines t))
      (.inl (Option.some_ne_none _))
    have hnil : m = [] := List.prefix_nil.1 ((prefix_of_marginOf hm).1 [] rfl)
    right
    simpa [BlockLayout.closingLines, hcloses, hclosing, hnil] using hm
  rw [(division_enclosed hblock hopens hcloses hreturns).strip_eq_of_keeps hblock hread
    (.inr hsolid) hmargin, unlines_lines]

/-- Lines of an escaped block are lines of the text, if they are blank, without control
characters. -/
lemma lines_escape_blank {written : EscapeRule}
    (hquote : written.quote = '"' ∨ written.quote = '\'') (hblock : written.block = true)
    (run : Nat) (t : Text) :
    List.Forall₂ (fun l m => isBlankText m = true → l = m ∧ ∀ c ∈ l, isControl c = false)
      (lines t) (lines (escapeFrom written run t)) := by
  induction t generalizing run with
  | nil => exact .cons (by simp) .nil
  | cons c t ih =>
    by_cases hc : c = '\n'
    · subst hc
      have hne : '\n' ≠ written.quote := by
        rcases hquote with h | h <;> rw [h] <;> decide
      have hescape : escapeFrom written run ('\n' :: t) = '\n' :: escapeFrom written 0 t := by
        rw [escapeFrom, if_neg hne]
        simp [escapeChar, hblock]
      rw [hescape, lines_newline, lines_newline]
      exact .cons (by simp) (ih 0)
    · obtain ⟨chunk, next, hsplit, hchunk⟩ := exists_chunk written hquote run c t
      obtain ⟨l, ls, hl⟩ := List.exists_cons_of_ne_nil (lines_ne_nil t)
      obtain ⟨m, ms, hm⟩ := List.exists_cons_of_ne_nil (lines_ne_nil (escapeFrom written next t))
      have hbehind := ih next
      rw [hl, hm, List.forall₂_cons] at hbehind
      rw [hsplit, lines_cons hc hl]
      rcases hchunk.blank with hblank | ⟨rfl, hcontrol, -⟩
      · have hline : '\n' ∉ chunk := fun hmem => absurd (hblank _ hmem) (by decide)
        rw [lines_append hline hm]
        refine .cons (fun hall => ?_) hbehind.2
        obtain ⟨d, chunk, rfl⟩ := List.exists_cons_of_ne_nil hchunk.ne_nil
        have hd := List.all_eq_true.1 hall d (by simp)
        rw [hblank d (List.mem_cons_self ..)] at hd
        cases hd
      · rw [List.singleton_append, lines_cons hc hm]
        refine .cons (fun hall => ?_) hbehind.2
        rw [isBlankText, List.all_cons, Bool.and_eq_true] at hall
        obtain ⟨rfl, hcontrols⟩ := hbehind.1 hall.2
        exact ⟨rfl, List.forall_mem_cons.2 ⟨hcontrol.resolve_left hc, hcontrols⟩⟩

/-- Among the ASCII characters, a blank is a space or a control character.  Both are escaped where
they end a line of a Java block. -/
lemma eq_space_of_isBlank {c : Char} (hblank : isBlank c = true) (hascii : c.toNat < 0x80)
    (hcontrol : isControl c = false) : c = ' ' := by
  have hspace : c.toNat = 0x20 := by
    simp only [isBlank, isControl, Bool.or_eq_true, Bool.and_eq_true, decide_eq_true_eq,
      beq_iff_eq, Bool.or_eq_false_iff, Bool.and_eq_false_iff, decide_eq_false_iff_not] at *
    omega
  exact Char.toNat_inj.1 hspace

/-- No line of an escaped Java block is blank, unless the text has such a line beyond ASCII. -/
lemma not_isBlankText_of_mem_lines_escape {written : EscapeRule}
    (hquote : written.quote = '"' ∨ written.quote = '\'') (hblock : written.block = true)
    (hjava : written.language = .java) {t : Text}
    (hascii : ∀ l ∈ lines t, isBlankText l = true → ∀ c ∈ l, c.toNat < 0x80) :
    ∀ m ∈ lines (escape written t), m ≠ [] → isBlankText m = false := by
  intro m hm hne
  by_contra hblank
  rw [Bool.not_eq_false] at hblank
  obtain ⟨l, hl, hsame⟩ : ∃ l ∈ lines t, isBlankText m = true →
      l = m ∧ ∀ c ∈ l, isControl c = false := by
    obtain ⟨i, rfl⟩ := List.mem_iff_get.1 hm
    have hlines := lines_escape_blank hquote hblock 0 t
    have hi : i.1 < (lines t).length := by rw [hlines.length_eq]; exact i.2
    exact ⟨(lines t).get ⟨i.1, hi⟩, List.get_mem .., hlines.get hi i.2⟩
  obtain ⟨rfl, hcontrol⟩ := hsame hblank
  have hlast : l.getLast? = some (l.getLast hne) := List.getLast?_eq_some_getLast hne
  have hmem := List.getLast_mem hne
  have hspace := eq_space_of_isBlank (List.all_eq_true.1 hblank _ hmem)
    (hascii l hl hblank _ hmem) (hcontrol _ hmem)
  have hend := not_isLineEndBlank_of_mem_lines hquote hblock hjava 0 t l hm _ hlast
  rw [hspace] at hend
  exact absurd hend (by decide)

namespace OneBlock

variable {h : Hints} {block : BlockLayout}

lemma raw_of_java (hb : OneBlock h block) (hjava : h.language = .java) : h.raw = false := by
  by_contra hraw
  rcases hb.language_of_raw (by simpa using hraw) with hlanguage | hlanguage <;>
    simp [hjava] at hlanguage

/-- A block that is left alone when its margin is taken off stands for the text. -/
lemma exists_decodeFragment_of_strip (hb : OneBlock h block) (hraw : h.raw = false)
    {written : BlockLayout} {t : Text}
    (hstrip : (strip (layOut (blockBody h written t) written) (h.language == .java)).1 =
      blockBody h written t) {source : Text} {f : Fragment}
    (hf : Shows source h.language f (blockString h written t)) :
    ∃ layout, decodeFragment source h.language f = .ok (t, layout) := by
  have hkotlin : h.language ≠ .kotlin := by
    intro hkotlin
    rw [hb.raw_of_kotlin hkotlin] at hraw
    cases hraw
  obtain ⟨htriple, hisRaw⟩ := hb.style_of_shows hf
  have hcontent : f.content.of source = layOut (blockBody h written t) written := hf.content
  have hreads : Reads h.language (blockBody h written t) t := by
    rw [blockBody, if_neg (by simp [hraw])]
    refine reads_escape ⟨h.language, h.quote, _, _, _⟩ ?_ t
    exact hb.quote.imp id And.right
  refine ⟨some (strip (layOut (blockBody h written t) written) (h.language == .java)).2, ?_⟩
  unfold decodeFragment
  simp only [hisRaw, hcontent, htriple, hkotlin, hraw, if_true, if_false, Bool.false_eq_true,
    hstrip, hreads _, Except.map]

/-- A Java block between lines of its quotes stands for the text, unless a line is made of blanks
some of which are beyond ASCII. -/
lemma exists_decodeFragment_enclosed (hb : OneBlock h block) (hjava : h.language = .java)
    (hopens : block.opensOnNewLine = true) (hcloses : block.closesOnOwnLine = true)
    (hclosing : block.closingIndent = block.margin) {t : Text}
    (hascii : ∀ l ∈ lines t, isBlankText l = true → ∀ c ∈ l, c.toNat < 0x80) {source : Text}
    {f : Fragment} (hf : Shows source h.language f (blockString h block t)) :
    ∃ layout, decodeFragment source h.language f = .ok (t, layout) := by
  have hraw := hb.raw_of_java hjava
  obtain ⟨rule, hbody, hlanguage, hquote, hblock⟩ : ∃ rule : EscapeRule,
      blockBody h block t = escape rule t ∧ rule.language = h.language ∧
        (rule.quote = '"' ∨ rule.quote = '\'') ∧ rule.block = true :=
    ⟨_, if_neg (by simp [hraw]), rfl, hb.quote.imp id And.right, rfl⟩
  refine hb.exists_decodeFragment_of_strip hraw ?_ hf
  have hreturns : '\r' ∉ escape rule t := not_mem_escapeFrom hquote 0 t
  have hread := readLine_of_mem_lines_escape hquote hblock t
  rw [dropReturns_of_not_mem hreturns, hlanguage] at hread
  rw [hbody]
  exact strip_layOut_enclosed hb.sound hopens hcloses hclosing hreturns
    (not_isBlankText_of_mem_lines_escape hquote hblock (hlanguage.trans hjava) hascii) hread

end OneBlock

/-- Hints at the text block that a string becomes: triple quotes in the place of double ones, and
the layout that promotion asks for. -/
def Hints.promoted (style : Style) (h : Hints) : Hints :=
  { h with
    style := .triple
    delimiter := "\"\"\""
    block := some (promotedLayout style h) }

/-- A string that is promoted is encoded as a block, between lines of its quotes. -/
lemma encode_promoted {h : Hints} (hs : SingleLine h) (hjava : h.language = .java)
    (hdouble : h.style = .double) (hsingle : h.fragmentCount = 1) (hraw : h.raw = false)
    {style : Style} (hpromote : style.promoteTextBlocks = true) {t : Text} (hline : '\n' ∈ t) :
    encode style h t = .ok (blockString (h.promoted style) (promotedLayout style h) t).source := by
  have hbroken : (t.any fun c => c == '\n') = true := List.any_eq_true.2 ⟨_, hline, rfl⟩
  unfold encode
  simp [hs.block, hjava, hdouble, hsingle, hpromote, hbroken, encodeBlock, hraw, blockFor,
    promotedLayout, blockString, blockBody, Hints.promoted, Quoted.source, Hints.enclose,
    Hints.quote]

/-- **Promotion is undone by decoding.**  A Java string becomes a text block that is found in an
annotation as the one literal there and stands for the text, as long as no line of the text is made
of blanks some of which are beyond ASCII. -/
theorem encode_promoted_lossless {buffer : Nat} {marks : Annotations} {source : Text} {l : Literal}
    (hl : .literal l ∈ locate buffer .java marks source) {f : Fragment} (hf : l.fragments = [f])
    (hdouble : f.style = .double) {query : Text} {hints : Hints}
    (hdecode : decode source .java l = .ok (query, hints)) {style : Style}
    (hpromote : style.promoteTextBlocks = true) {t : Text} (hline : '\n' ∈ t)
    (hascii : ∀ line ∈ lines t, isBlankText line = true → ∀ c ∈ line, c.toNat < 0x80) :
    ∃ e, encode style hints t = .ok e ∧
      ∃ (m : Literal) (g : Fragment), locate 0 .java {} (annotate e) = [.literal m] ∧
        m.span = ⟨0, bytes "@Query(", bytes "@Query(" + bytes e⟩ ∧
        m.fragments = [g] ∧ g.style = .triple ∧
        ∃ hints', decode (annotate e) .java m = .ok (t, hints') := by
  have hsingle := singleLine_of_decode hl (by simp [hf, hdouble]) hdecode
  obtain ⟨g, fs, layout, hfragments, -, hhints⟩ := exists_of_decode hdecode
  obtain ⟨rfl, rfl⟩ : f = g ∧ [] = fs := List.cons.inj (hf.symm.trans hfragments)
  have hjava : hints.language = .java := by rw [hhints]; rfl
  have hindent : hints.lineIndent = lineIndentAt source l.span.start := by rw [hhints]; rfl
  have hcount : hints.fragmentCount = 1 := by rw [hhints]; simp [hintsOf, hf]
  have hstyle : hints.style = .double := by rw [hhints]; exact hdouble
  have hb : OneBlock (hints.promoted style) (promotedLayout style hints) :=
    hsingle.promoted hjava hcount (by rw [hindent]; exact isBlankText_lineIndentAt _ _)
      (by rw [hindent]; exact not_mem_lineIndentAt _ _) style
  have hraw : hints.raw = false := hb.raw_of_java hjava
  have hlegible : Legible (hints.promoted style).language
      (blockString (hints.promoted style) (promotedLayout style hints) t) [')'] :=
    hb.legible_blockString hb.sound (fun h => absurd (h.symm.trans hraw) (by decide)) (by decide)
  have hlanguage : (hints.promoted style).language = .java := hjava
  refine ⟨_, encode_promoted hsingle hjava hstyle hcount hraw hpromote hline, ?_⟩
  obtain ⟨m, hm, hspan, hshows⟩ := locate_expression (Expression.last hlegible)
  obtain ⟨g, _, hg, hnil, hfragment⟩ := List.forall₂_cons_right_iff.1 hshows
  obtain rfl := List.forall₂_nil_right_iff.1 hnil
  obtain ⟨layout, hdecoded⟩ := hb.exists_decodeFragment_enclosed hjava rfl rfl rfl hascii hg
  rw [hlanguage] at hm hdecoded
  refine ⟨m, g, hm, hspan, hfragment, (hb.style_of_shows hg).1, ?_⟩
  simp only [decode, hfragment, decodeFragments, hdecoded, Except.map]
  exact ⟨_, rfl⟩

/-- A text block of a text that starts and ends with a line feed, with blanks at the ends of its
lines and a run of quotes. -/
theorem encode_promoted_lossless_quotes :
    ∃ (l : Literal) (f : Fragment) (hints : Hints),
      .literal l ∈ locate 0 .java {} "  @Query(\"x\")" ∧ l.fragments = [f] ∧ f.style = .double ∧
      decode "  @Query(\"x\")" .java l = .ok ("x", hints) ∧
      '\n' ∈ ("\na \n \t\n\"\"\"\"\n" : Text) ∧
      (∀ line ∈ lines "\na \n \t\n\"\"\"\"\n",
        isBlankText line = true → ∀ c ∈ line, c.toNat < 0x80) ∧
      ∃ e, encode {promoteTextBlocks := true, indentWidth := 2} hints
          "\na \n \t\n\"\"\"\"\n" = .ok e ∧
        ∃ (m : Literal) (g : Fragment), locate 0 .java {} (annotate e) = [.literal m] ∧
          m.span = ⟨0, bytes "@Query(", bytes "@Query(" + bytes e⟩ ∧
          m.fragments = [g] ∧ g.style = .triple ∧
          ∃ hints', decode (annotate e) .java m = .ok ("\na \n \t\n\"\"\"\"\n", hints') := by
  let f : Fragment := ⟨⟨0, 9, 12⟩, ⟨0, 10, 11⟩, .double, [], "\"", none⟩
  let l : Literal := ⟨"Query", ⟨0, 9, 12⟩, [f], .jpql⟩
  let hints : Hints := ⟨.java, .double, [], "\"", false, 1, none, false, false, none, "  ", false⟩
  have hl : .literal l ∈ locate 0 .java {} "  @Query(\"x\")" := by decide +kernel
  have hdecode : decode "  @Query(\"x\")" .java l = .ok ("x", hints) := by decide +kernel
  have hline : '\n' ∈ ("\na \n \t\n\"\"\"\"\n" : Text) := by decide
  have hascii : ∀ line ∈ lines "\na \n \t\n\"\"\"\"\n",
      isBlankText line = true → ∀ c ∈ line, c.toNat < 0x80 := by
    intro line hmem _ c hc
    have hall : ∀ d ∈ ("\na \n \t\n\"\"\"\"\n" : Text), d.toNat < 0x80 :=
      List.all_iff_forall_prop.1 (by decide)
    exact hall c (subset_of_mem_lines hmem hc)
  exact ⟨l, f, hints, hl, rfl, rfl, hdecode, hline, hascii,
    encode_promoted_lossless hl rfl rfl hdecode rfl hline hascii⟩

end SqlInlay.Host
