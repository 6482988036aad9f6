import SqlInlay.Proofs.Host.Layouts

/-!
# Layouts taken off and put back

`strip` and `layOut` undo each other, each on the texts that the other could have made.

**Putting on, then taking off.**  `Suits` says of a text that its lines leave the layout legible:
the first line shows where the text starts and the last one where it ends, no line is blank without
being empty, and some line that is laid out behind the margin starts at the margin.  Such a text
comes back (`strip_layOut_suits`), unless it ends in a carriage return which makes one line break
with the line feed in front of the closing quotes (`not_strip_layOut_suits`).

* `Suits.keepsBlankLines`, `Suits.keepsMargin` — a text that suits a layout meets the two conditions
  under which lines are read as they were laid out (`strip_eq_iff`).
* `exists_division` — its lines are found again in the content.

**Taking off, then putting on.**  A content comes back byte for byte if blank lines and ends of
lines hold nothing that is not read (`layOut_strip`).

* `exists_divides` — every content can be divided into its lines of the quotes, the line right
  behind them and the lines behind the margin.
* `Divides.layout_eq` — the layout that is read is told by the division.
* `indented_readLine`, `Divides.layOutLines_read` — line by line, what was taken off is put back.
-/

namespace SqlInlay.Host

open SqlInlay.Text

/-! ## Contents without carriage returns in front of line feeds -/

/-- A line that others follow has a line feed behind it. -/
lemma concat_newline_infix (front : List Text) (l : Text) (back : List Text) (hback : back ≠ []) :
    l ++ ['\n'] <:+: unlines (front ++ l :: back) := by
  induction front with
  | nil =>
    rw [List.nil_append, unlines_cons hback]
    exact ⟨[], unlines back, by simp⟩
  | cons m front ih =>
    rw [List.cons_append, unlines_cons (by simp)]
    exact ih.trans ⟨m ++ ['\n'], [], by simp⟩

/-- Lines that line feeds follow do not end in carriage returns. -/
lemma chop_eq_of_mem_dropLast {t : Text} (h : Text.contains "\r\n" t = false) :
    ∀ l ∈ (lines t).dropLast, chop l = l := by
  intro l hl
  refine chop_of_getLast? fun c hc hreturn => ?_
  subst hreturn
  obtain ⟨ls, last, hls⟩ : ∃ ls last, lines t = ls ++ [last] :=
    ⟨_, _, (List.dropLast_append_getLast (lines_ne_nil t)).symm⟩
  rw [hls, List.dropLast_concat] at hl
  obtain ⟨front, back, rfl⟩ := List.append_of_mem hl
  obtain ⟨k, rfl⟩ := List.getLast?_eq_some_iff.1 hc
  have hinside := concat_newline_infix front (k ++ ['\r']) (back ++ [last]) (by simp)
  have htext : unlines (front ++ (k ++ ['\r']) :: (back ++ [last])) = t := by
    rw [← List.cons_append, ← List.append_assoc, ← hls, unlines_lines]
  rw [htext] at hinside
  have hbreak : "\r\n".toList <:+: t := List.IsInfix.trans ⟨k, [], by simp⟩ hinside
  rw [contains_iff.2 hbreak] at h
  cases h

lemma chopped_eq {ls : List Text} (h : ∀ l ∈ ls.dropLast, chop l = l) : chopped ls = ls := by
  rcases List.eq_nil_or_concat ls with rfl | ⟨ms, l, rfl⟩
  · rfl
  · rw [List.concat_eq_append] at h ⊢
    rw [List.dropLast_concat] at h
    rw [chopped_concat, List.map_congr_left h, List.map_id']

/-- Nothing is dropped where no carriage return stands in front of a line feed. -/
lemma lines_dropReturns_eq {t : Text} (h : Text.contains "\r\n" t = false) :
    lines (dropReturns t) = lines t := by
  rw [lines_dropReturns, chopped_eq (chop_eq_of_mem_dropLast h)]

/-- Laying lines out puts nothing at their ends. -/
lemma chop_layOutLines (block : BlockLayout) {ls : List Text} (h : ∀ l ∈ ls, chop l = l) :
    ∀ l ∈ layOutLines block ls, chop l = l := by
  have hindented : ∀ l : Text, chop l = l →
      chop (indented block.margin l) = indented block.margin l := by
    intro l hl
    by_cases hnil : l = []
    · rw [hnil]
      rfl
    · have heq : indented block.margin l = block.margin ++ l := by simp [indented, hnil]
      rw [heq, chop_append hnil, hl]
  cases ls with
  | nil => simp [layOutLines]
  | cons first ls =>
    rw [List.forall_mem_cons] at h
    rw [layOutLines, List.forall_mem_cons]
    refine ⟨?_, List.forall_mem_map.2 fun l hl => hindented l (h.2 l hl)⟩
    split
    · exact hindented first h.1
    · exact h.1

lemma dropLast_layOutLines (block : BlockLayout) (ls : List Text) :
    (layOutLines block ls).dropLast = layOutLines block ls.dropLast := by
  rcases ls with _ | ⟨first, _ | ⟨l, ls⟩⟩
  · rfl
  · rfl
  · simp [layOutLines, List.map_dropLast]

/-! ## Putting on, then taking off -/

/-- A text whose lines leave a layout legible: nothing of it is taken for the margin, for the lines
of the quotes, or for blanks that a block does not keep. -/
structure Suits (block : BlockLayout) (stripTrailing : Bool) (t : Text) : Prop where
  returns : Text.contains "\r\n" t = false
  blankLines : ∀ l ∈ lines t, isBlankText l = true → l = []
  /-- The first line starts with a character that is no blank. -/
  first : ∀ l ∈ (lines t).head?, l.head?.any (!isBlank ·) = true
  last : ∀ l ∈ (lines t).getLast?, isBlankText l = false
  /-- Where the ends of lines are trimmed, there is nothing to trim. -/
  ends : stripTrailing = true → ∀ l ∈ lines t, l.getLast?.any isLineEndBlank = false
  /-- Behind a first line that is not indented, some line starts at the margin. -/
  flush : block.opensOnNewLine = false → 1 < (lines t).length →
    ∃ l ∈ (lines t).drop 1, l.head?.any (!isBlank ·) = true

lemma indentOf_eq_nil {l : Text} (h : l.head?.any (!isBlank ·) = true) :
    indentOf l = [] ∧ isBlankText l = false := by
  cases l with
  | nil => cases h
  | cons c l =>
    have hc : isBlank c = false := by simpa using h
    exact ⟨by simp [indentOf, hc], by simp [isBlankText, hc]⟩

/-- A line that starts at the margin leaves nothing to take off beyond it. -/
lemma marginOf_eq_nil {known : Option Text} {ls : List Text} {l : Text} (hl : l ∈ ls)
    (h : l.head?.any (!isBlank ·) = true) : marginOf known ls = some [] := by
  obtain ⟨m, hm⟩ := exists_marginOf known ls (.inr (List.ne_nil_of_mem hl))
  have hbegins := (prefix_of_marginOf hm).2 l hl
  rw [(indentOf_eq_nil h).1] at hbegins
  rw [hm, List.prefix_nil.1 hbegins]

lemma readLine_eq {stripTrailing : Bool} {l : Text}
    (h : stripTrailing = true → l.getLast?.any isLineEndBlank = false) :
    readLine stripTrailing l = l := by
  cases stripTrailing with
  | false => rfl
  | true =>
    refine trimEndWhile_of_getLast? fun c hc => ?_
    have hlast := h rfl
    rw [Option.mem_def.1 hc] at hlast
    exact hlast

namespace Suits

variable {block : BlockLayout} {stripTrailing : Bool} {t : Text}

lemma keepsBlankLines (h : Suits block stripTrailing t) : KeepsBlankLines block (lines t) :=
  .inr fun l hl hne => Bool.eq_false_iff.2 fun hblank => hne (h.blankLines l hl hblank)

/-- A line that counts for the margin starts at it, or there is no such line. -/
lemma keepsMargin (h : Suits block stripTrailing t) : KeepsMargin block (lines t) := by
  obtain ⟨first, ls, hls⟩ := List.exists_cons_of_ne_nil (lines_ne_nil t)
  have hcounted : ∀ l ∈ (if block.opensOnNewLine then lines t else (lines t).drop 1),
      l.head?.any (!isBlank ·) = true → KeepsMargin block (lines t) := by
    intro l hl hflush
    refine .inr (marginOf_eq_nil (l := l) ?_ hflush)
    exact List.mem_filter.2 ⟨hl, by simp [(indentOf_eq_nil hflush).2]⟩
  cases hopens : block.opensOnNewLine with
  | true =>
    refine hcounted first ?_ (h.first first (by simp [hls]))
    simp [hopens, hls]
  | false =>
    by_cases hone : 1 < (lines t).length
    · obtain ⟨l, hl, hflush⟩ := h.flush hopens hone
      exact hcounted l (by rwa [hopens, if_neg Bool.false_ne_true]) hflush
    · obtain rfl : ls = [] := List.length_eq_zero_iff.1 (by simpa [hls] using hone)
      left
      simp [countedLines, hopens, hls]

/-- The last line ends as the text does. -/
lemma chop_eq_of_mem_lines (h : Suits block stripTrailing t) (hend : t.getLast? ≠ some '\r') :
    ∀ l ∈ lines t, chop l = l := by
  obtain ⟨ls, last, hls⟩ : ∃ ls last, lines t = ls ++ [last] :=
    ⟨_, _, (List.dropLast_append_getLast (lines_ne_nil t)).symm⟩
  have hfront := chop_eq_of_mem_dropLast h.returns
  have hlast := h.last last (by simp [hls])
  rw [hls] at hfront ⊢
  rw [List.dropLast_concat] at hfront
  refine List.forall_mem_append.2 ⟨hfront, List.forall_mem_singleton.2 ?_⟩
  have htext : ∃ front, t = front ++ last := by
    rw [← unlines_lines t, hls]
    by_cases hnil : ls = []
    · exact ⟨[], by rw [hnil]; rfl⟩
    · exact ⟨unlines ls ++ ['\n'], by rw [unlines_concat hnil]; simp⟩
  obtain ⟨front, htext⟩ := htext
  refine chop_of_getLast? fun c hc hreturn => hend ?_
  subst hreturn
  rw [htext, List.getLast?_append, Option.mem_def.1 hc]
  rfl

/-- No line of the content has a carriage return in front of its line feed, if the text does not
end in one in front of the line of the closing quotes. -/
lemma lines_content (h : Suits block stripTrailing t) (hblock : block.Sound)
    (hend : block.closesOnOwnLine = true → t.getLast? ≠ some '\r') :
    lines (dropReturns (layOut t block)) =
      block.openingLines ++ (layOutLines block (lines t) ++ block.closingLines) := by
  have hopening : ∀ l ∈ block.openingLines, chop l = l := by
    unfold BlockLayout.openingLines
    split <;> simp [chop]
  have hmiddle := layOutLines_ne_nil block t
  rw [lines_dropReturns, lines_layOut hblock]
  refine chopped_eq ?_
  cases hcloses : block.closesOnOwnLine with
  | true =>
    have hlaid := chop_layOutLines block (h.chop_eq_of_mem_lines (hend hcloses))
    rw [BlockLayout.closingLines, if_pos hcloses, ← List.append_assoc, List.dropLast_concat]
    exact List.forall_mem_append.2 ⟨hopening, hlaid⟩
  | false =>
    have hlaid := chop_layOutLines block (chop_eq_of_mem_dropLast h.returns)
    rw [← dropLast_layOutLines] at hlaid
    rw [BlockLayout.closingLines, hcloses, if_neg Bool.false_ne_true, List.append_nil,
      List.dropLast_append_of_ne_nil hmiddle]
    exact List.forall_mem_append.2 ⟨hopening, hlaid⟩

/-- The lines of the text are found again in the content.  The first and the last line are solid, so
neither is taken for one that belongs to the quotes; and the margin that is put in front of a line
stands in front of it. -/
lemma exists_division (h : Suits block stripTrailing t) (hblock : block.Sound)
    (hend : block.closesOnOwnLine = true → t.getLast? ≠ some '\r') :
    ∃ opening inline kept laid closing, Division block (lines t)
      (lines (dropReturns (layOut t block))) opening inline kept laid closing := by
  have hlaid : ∀ ls : List Text,
      List.Forall₂ (LaidLine block.margin) ls (ls.map (indented block.margin)) := by
    intro ls
    rw [List.forall₂_map_right_iff, List.forall₂_same]
    exact fun l _ => .indented hblock.margin l
  have hsolid : ∀ l : Text, isBlankText l = false → l ≠ [] := by
    rintro l hl rfl
    cases hl
  rw [h.lines_content hblock hend]
  obtain ⟨first, ls, hls⟩ := List.exists_cons_of_ne_nil (lines_ne_nil t)
  have hfirst := h.first first (by simp [hls])
  have hlast := h.last
  rw [hls] at hlast ⊢
  unfold BlockLayout.openingLines
  cases hopens : block.opensOnNewLine with
  | true =>
    simp only [layOutLines, hopens, if_true]
    exact exists_division_of_opens hblock hopens (List.cons_ne_nil _ _) (hlaid (first :: ls))
      fun l hl => hsolid l (hlast l hl)
  | false =>
    simp only [layOutLines, hopens, Bool.false_eq_true, if_false, List.nil_append,
      List.cons_append]
    refine exists_division_of_inline hblock hopens (hlaid ls)
      (hsolid first (indentOf_eq_nil hfirst).2) fun l hl => hsolid l (hlast l ?_)
    rw [List.getLast?_cons, hl]
    rfl

end Suits

/-- **A text that suits a layout comes back from it**: what is put on is taken off again, as long as
no carriage return at the end of the text meets the line feed in front of the closing quotes. -/
theorem strip_layOut_suits {block : BlockLayout} (hblock : block.Sound) {stripTrailing : Bool}
    {t : Text} (h : Suits block stripTrailing t)
    (hend : block.closesOnOwnLine = true → t.getLast? ≠ some '\r') :
    (strip (layOut t block) stripTrailing).1 = t := by
  obtain ⟨opening, inline, kept, laid, closing, hdivision⟩ := h.exists_division hblock hend
  rw [hdivision.strip_eq_of_keeps hblock (fun l hl => readLine_eq fun htrim => h.ends htrim l hl)
    h.keepsBlankLines h.keepsMargin, unlines_lines]

/-- Two indented lines with an empty one between them, behind the quotes. -/
theorem strip_layOut_suits_empty_line :
    (strip (layOut "select u\n\n  from User u\nwhere a" ⟨"\t", false, true, "\t "⟩) true).1 =
      "select u\n\n  from User u\nwhere a".toList := by
  have hblock : BlockLayout.Sound ⟨"\t", false, true, "\t "⟩ :=
    ⟨rfl, rfl, by decide, by decide, fun _ => ⟨" ".toList, rfl⟩⟩
  have hsuits : Suits ⟨"\t", false, true, "\t "⟩ true "select u\n\n  from User u\nwhere a" :=
    ⟨by decide, by decide, by decide, by decide, by decide, by decide⟩
  exact strip_layOut_suits hblock hsuits (by decide)

/-- A carriage return at the end of a text is lost in front of a line of the closing quotes. -/
theorem not_strip_layOut_suits :
    ¬ ∀ (block : BlockLayout) (stripTrailing : Bool) (t : Text), block.Sound →
      Suits block stripTrailing t → (strip (layOut t block) stripTrailing).1 = t := by
  intro h
  have hback := h ⟨"    ", true, true, "    "⟩ false "x\x0d"
    ⟨rfl, rfl, by decide, by decide, fun _ => List.prefix_refl _⟩
    ⟨by decide, by decide, by decide, by decide, by decide, by decide⟩
  exact absurd hback (by decide)

/-! ## Taking off, then putting on -/

/-- Lines behind the margin are divided from that of the closing quotes, which is blank. -/
lemma exists_closing (ls : List Text) :
    ∃ margined closing, ls = margined ++ closing ∧
      ((∃ z, closing = [z] ∧ isBlankText z = true) ∨
        (closing = [] ∧ ∀ z ∈ margined.getLast?, isBlankText z = false)) := by
  rcases List.eq_nil_or_concat ls with rfl | ⟨ms, z, rfl⟩
  · exact ⟨[], [], rfl, .inr ⟨rfl, by simp⟩⟩
  · rw [List.concat_eq_append]
    cases hz : isBlankText z with
    | true => exact ⟨ms, [z], rfl, .inl ⟨z, rfl, hz⟩⟩
    | false => exact ⟨ms ++ [z], [], by simp, .inr ⟨rfl, by simp [hz]⟩⟩

/-- Every content can be divided. -/
lemma exists_divides {all : List Text} (hne : all ≠ []) :
    ∃ opening inline margined closing, Divides all opening inline margined closing := by
  obtain ⟨first, ls, rfl⟩ := List.exists_cons_of_ne_nil hne
  obtain ⟨margined, closing, rfl, hcloses⟩ := exists_closing ls
  cases hstarts : startsBehindBlank (first :: (margined ++ closing)) with
  | true => exact ⟨[first], [], margined, closing, rfl, .inl ⟨hstarts, rfl, rfl⟩, hcloses⟩
  | false => exact ⟨[], [first], margined, closing, rfl, .inr ⟨hstarts, rfl, rfl⟩, hcloses⟩

/-- A line that is read behind the margin is put back there, unless it holds blanks that are not
read. -/
lemma indented_readLine {margined : List Text} (closing : List Text) {stripTrailing : Bool}
    {l : Text} (hl : l ∈ margined) (hblank : isBlankText l = true → l = [])
    (hend : stripTrailing = true → l.getLast?.any isLineEndBlank = false) :
    indented (Divides.margin margined closing)
      (readLine stripTrailing (unindent (Divides.margin margined closing) l)) = l := by
  cases hsolid : isBlankText l with
  | true =>
    rw [hblank hsolid]
    cases stripTrailing <;> rfl
  | false =>
    obtain ⟨m, hm⟩ := exists_marginOf closing.head? (margined.filter (!isBlankText ·))
      (.inr (List.ne_nil_of_mem (List.mem_filter.2 ⟨hl, by simp [hsolid]⟩)))
    have hbegins : m <+: indentOf l :=
      (prefix_of_marginOf hm).2 l (List.mem_filter.2 ⟨hl, by simp [hsolid]⟩)
    have hm' : Divides.margin margined closing = m := by
      rw [Divides.margin, hm, Option.getD_some]
    have hmargin : isBlankText m = true :=
      List.all_eq_true.2 fun c hc => List.mem_takeWhile_imp (hbegins.subset hc)
    obtain ⟨rest, rfl⟩ := hbegins.trans (List.takeWhile_prefix isBlank)
    have hrest : rest ≠ [] := by
      rintro rfl
      rw [List.append_nil, hmargin] at hsolid
      cases hsolid
    rw [List.getLast?_append_of_ne_nil m hrest] at hend
    have hbare : unindent m (m ++ rest) = rest := by
      rw [unindent, hsolid, if_neg Bool.false_ne_true, after?_append, Option.getD_some]
    rw [hm', hbare, readLine_eq hend, indented, List.isEmpty_eq_false_iff.2 hrest,
      if_neg Bool.false_ne_true]

namespace Divides

variable {all opening inline margined closing : List Text}

/-- The layout that is read of a content.  It is read off the same four parts that `strip_eq` puts
the text together from: the margin off the lines that have one, the rest off whether there are
opening and closing lines. -/
lemma layout_eq {content : Text}
    (h : Divides (lines (dropReturns content)) opening inline margined closing)
    (stripTrailing : Bool) :
    (strip content stripTrailing).2 =
      ⟨margin margined closing, !opening.isEmpty, !closing.isEmpty, closing.head?.getD []⟩ := by
  generalize hall : lines (dropReturns content) = all at h
  have hstart : (decide (all.length > 1) && all.head?.any isBlankText) = startsBehindBlank all :=
    rfl
  have hindent : (if (!closing.isEmpty) = true then
      (inline ++ (margined ++ closing)).getLast?.getD [] else []) = closing.head?.getD [] := by
    rcases h.closes with ⟨z, rfl, -⟩ | ⟨rfl, -⟩
    · simp [← List.append_assoc]
    · rfl
  have hknown := h.known_eq
  rw [hindent] at hknown
  have hkept := h.kept_eq
  unfold strip margin
  rcases h.opens with ⟨hopens, hopening, rfl⟩ | ⟨hopens, rfl, hinline⟩
  · obtain ⟨o, rfl⟩ := List.length_eq_one_iff.1 hopening
    have hinner : all.drop 1 = [] ++ (margined ++ closing) := by
      rw [h.all_eq]
      rfl
    have hcloses := h.closes_eq true rfl
    simp only [List.nil_append] at hinner hcloses hkept hindent
    simp only [hall, hstart, hopens, if_true, hinner, hcloses, hknown, hkept, hindent,
      List.drop_zero, List.isEmpty_cons, Bool.not_false]
  · have hinner : all = inline ++ (margined ++ closing) := by
      rw [h.all_eq]
      rfl
    have hcloses := h.closes_eq false (by simpa using hinline)
    have hdrop : (inline ++ margined).drop 1 = margined := by
      rw [← hinline]
      exact List.drop_left
    simp only [hall, hstart, hopens, Bool.false_eq_true, if_false]
    rw [hinner]
    simp only [hcloses, hknown, hkept, hindent, hdrop, List.isEmpty_nil, Bool.not_true]

/-- The lines whose blanks are not those of the closing quotes. -/
lemma inner_eq (h : Divides all opening inline margined closing) :
    (if (!closing.isEmpty) = true then all.dropLast else all) =
      opening ++ (inline ++ margined) := by
  rcases h.closes with ⟨z, rfl, -⟩ | ⟨rfl, -⟩
  · simp [h.all_eq, ← List.append_assoc]
  · simp [h.all_eq]

end Divides

namespace Divides

variable {all opening inline margined closing : List Text}

/-- The lines of a content are laid out as they were, if no blanks go missing.  A line loses its
margin when it is read and gets it back; a blank one would get none and an end of blanks would be
lost, which is why both are excluded. -/
lemma layOutLines_read (h : Divides all opening inline margined closing) (stripTrailing : Bool)
    (block : BlockLayout) (hmargin : block.margin = margin margined closing)
    (hopens : block.opensOnNewLine = !opening.isEmpty)
    (hblank : ∀ l ∈ inline ++ margined, isBlankText l = true → l = [])
    (hends : stripTrailing = true → ∀ l ∈ inline ++ margined,
      l.getLast?.any isLineEndBlank = false) :
    layOutLines block ((inline ++ margined.map (unindent (margin margined closing))).map
      (readLine stripTrailing)) = inline ++ margined := by
  have hback : ((margined.map (unindent (margin margined closing))).map
      (readLine stripTrailing)).map (indented block.margin) = margined := by
    rw [List.map_map, List.map_map, hmargin]
    refine (List.map_congr_left fun l hl => ?_).trans (List.map_id' margined)
    exact indented_readLine closing hl (hblank l (List.mem_append_right _ hl))
      fun htrim => hends htrim l (List.mem_append_right _ hl)
  rw [List.map_append]
  rcases h.opens with ⟨-, hopening, rfl⟩ | ⟨-, rfl, hinline⟩
  · obtain ⟨o, rfl⟩ := List.length_eq_one_iff.1 hopening
    have hnew : block.opensOnNewLine = true := hopens
    rw [List.map_nil, List.nil_append, List.nil_append]
    refine Eq.trans ?_ hback
    cases (margined.map (unindent (margin margined closing))).map (readLine stripTrailing) with
    | nil => rfl
    | cons l ls => rw [layOutLines, if_pos hnew, List.map_cons]
  · obtain ⟨l, rfl⟩ := List.length_eq_one_iff.1 hinline
    have hnew : block.opensOnNewLine = false := hopens
    have hl : readLine stripTrailing l = l :=
      readLine_eq fun htrim => hends htrim l (List.mem_append_left _ (List.mem_singleton_self l))
    rw [List.map_singleton, hl, List.singleton_append, layOutLines, hnew,
      if_neg Bool.false_ne_true, hback, List.singleton_append]

/-- A line that is not blank stands between the quotes. -/
lemma exists_solid (h : Divides all opening inline margined closing)
    (hsolid : ∃ l ∈ all, isBlankText l = false) : inline ++ margined ≠ [] := by
  obtain ⟨l, hl, hsolid⟩ := hsolid
  rw [h.all_eq, ← List.append_assoc inline, List.mem_append, List.mem_append] at hl
  rcases hl with hl | hl | hl
  · exfalso
    rcases h.opens with ⟨hstarts, hopening, -⟩ | ⟨-, rfl, -⟩
    · obtain ⟨o, rfl⟩ := List.length_eq_one_iff.1 hopening
      obtain rfl := List.mem_singleton.1 hl
      rw [startsBehindBlank, h.all_eq, Bool.and_eq_true] at hstarts
      exact Bool.false_ne_true (hsolid.symm.trans hstarts.2)
    · cases hl
  · exact List.ne_nil_of_mem hl
  · exfalso
    rcases h.closes with ⟨z, rfl, hz⟩ | ⟨rfl, -⟩
    · obtain rfl := List.mem_singleton.1 hl
      exact Bool.false_ne_true (hsolid.symm.trans hz)
    · cases hl

end Divides

/-- The lines of a content but that of the closing quotes, which may have blanks of its own. -/
def contentLines (block : BlockLayout) (content : Text) : List Text :=
  if block.closesOnOwnLine then (lines content).dropLast else lines content

/-- **A content is put back byte for byte** with the text and the layout that are read of it, if
some line is not blank, no line is blank without being empty, nothing is to be trimmed at the ends
of lines, and no carriage return stands in front of a line feed.  The line of the closing quotes may
have any blanks. -/
theorem layOut_strip {content : Text} {stripTrailing : Bool}
    (hreturns : Text.contains "\r\n" content = false)
    (hsolid : ∃ l ∈ lines content, isBlankText l = false)
    (hblank : ∀ l ∈ contentLines (strip content stripTrailing).2 content,
      isBlankText l = true → l = [])
    (hends : stripTrailing = true → ∀ l ∈ contentLines (strip content stripTrailing).2 content,
      l.getLast?.any isLineEndBlank = false) :
    layOut (strip content stripTrailing).1 (strip content stripTrailing).2 = content := by
  obtain ⟨opening, inline, margined, closing, h⟩ := exists_divides (lines_ne_nil content)
  have hcontent := lines_dropReturns_eq hreturns
  rw [← hcontent] at h
  have hlayout := h.layout_eq stripTrailing
  have hinner := h.inner_eq
  have hne := h.exists_solid (hcontent ▸ hsolid)
  rw [hcontent] at hinner
  simp only [contentLines, hlayout, hinner] at hblank hends
  have hread : lines (strip content stripTrailing).1 =
      (inline ++ margined.map (unindent (Divides.margin margined closing))).map
        (readLine stripTrailing) := by
    rw [h.strip_eq, lines_unlines]
    · simpa using hne
    · exact h.not_mem_of_mem_read (fun l hl => not_mem_of_mem_lines hl) stripTrailing
  have hlaid := h.layOutLines_read stripTrailing (strip content stripTrailing).2
    (by rw [hlayout]) (by rw [hlayout])
    (fun l hl => hblank l (List.mem_append_right _ hl))
    (fun htrim l hl => hends htrim l (List.mem_append_right _ hl))
  have hopening : (strip content stripTrailing).2.openingLines = opening := by
    rw [hlayout, BlockLayout.openingLines]
    rcases h.opens with ⟨hstarts, hopening, -⟩ | ⟨-, rfl, -⟩
    · obtain ⟨o, rfl⟩ := List.length_eq_one_iff.1 hopening
      rw [startsBehindBlank, h.all_eq, Bool.and_eq_true] at hstarts
      rw [hblank o (by simp) hstarts.2]
      rfl
    · rfl
  have hclosing : (strip content stripTrailing).2.closingLines = closing := by
    rw [hlayout, BlockLayout.closingLines]
    rcases h.closes with ⟨z, rfl, -⟩ | ⟨rfl, -⟩ <;> rfl
  calc layOut (strip content stripTrailing).1 (strip content stripTrailing).2
      = unlines (lines (layOut (strip content stripTrailing).1 (strip content stripTrailing).2)) :=
        (unlines_lines _).symm
    _ = unlines (opening ++ (inline ++ margined ++ closing)) := by
        rw [lines_layOut (sound_strip content stripTrailing), hread, hlaid, hopening, hclosing]
    _ = content := by rw [List.append_assoc, ← h.all_eq, hcontent, unlines_lines]

/-- Spaces and tabs make up the margin, and the closing quotes stand at it. -/
theorem layOut_strip_staggered :
    layOut (strip "\n \t  select u\n\n \t    from User u\n \t" true).1
        (strip "\n \t  select u\n\n \t    from User u\n \t" true).2 =
      "\n \t  select u\n\n \t    from User u\n \t".toList :=
  layOut_strip (by decide) ⟨" \t  select u".toList, by decide, by decide⟩ (by decide)
    (by decide)

end SqlInlay.Host
