import SqlInlay.Host.Codec
import SqlInlay.Proofs.Host.Margins

/-!
# Texts laid out and read again

`Keeps` says exactly when a text comes back from its layout in a block: no carriage return stands in
front of a line feed, no blank line is lost, and no indentation but the margin is taken off
(`strip_layOut_iff`).  In any case, what comes back is the text without some of its blanks
(`thinned_strip_layOut`).

**Carriage returns** in front of line feeds are dropped from every line but the last (`chopped`).

**Contents.**  A text has lines, and the content that it is laid out in has those lines and maybe
one of the opening quotes and one of the closing quotes (`lines_layOut`).  `Unbroken` texts neither
start nor end with a line break, so the first and the last line of the text are not blank for that
reason, and the lines of the content can be divided (`Unbroken.exists_division`).  From there on the
theory of margins applies.

**Layouts that are read.**  The layout of a content that was read could be read again
(`sound_strip`), so a literal can be written again in the layout that it had.
-/

namespace SqlInlay.Host

open SqlInlay.Text

/-! ## Carriage returns -/

/-- A line without the carriage return at its end. -/
def chop (l : Text) : Text := if l.getLast? = some '\r' then l.dropLast else l

/-- Lines without the carriage returns in front of line feeds. -/
def chopped : List Text → List Text
  | l :: m :: ls => chop l :: chopped (m :: ls)
  | ls => ls

lemma chop_cons {c : Char} {l : Text} (h : l = [] → c ≠ '\r') : chop (c :: l) = c :: chop l := by
  cases l with
  | nil => simp [chop, h rfl]
  | cons d l => simp only [chop, List.getLast?_cons_cons]; split <;> rfl

lemma chop_append {m l : Text} (hl : l ≠ []) : chop (m ++ l) = m ++ chop l := by
  simp only [chop, List.getLast?_append_of_ne_nil m hl]
  split
  · exact List.dropLast_append_of_ne_nil hl
  · rfl

lemma chopped_cons {ls : List Text} (hls : ls ≠ []) (l : Text) :
    chopped (l :: ls) = chop l :: chopped ls := by
  obtain ⟨m, ms, rfl⟩ := List.exists_cons_of_ne_nil hls
  rfl

lemma chopped_concat (ls : List Text) (l : Text) : chopped (ls ++ [l]) = ls.map chop ++ [l] := by
  induction ls with
  | nil => rfl
  | cons m ls ih => rw [List.cons_append, chopped_cons (by simp), ih]; rfl

/-- The lines that are left when carriage returns are dropped: every line but the last one is
chopped.  The cases are those of `dropReturns`; a carriage return is dropped exactly where it ends a
line that has another one behind it. -/
lemma lines_dropReturns (t : Text) : lines (dropReturns t) = chopped (lines t) := by
  fun_induction dropReturns t with
  | case1 => rfl
  | case2 c =>
    by_cases hc : c = '\n'
    · subst hc
      rfl
    · rw [lines_cons hc (t := []) rfl]
      rfl
  | case3 c d t h ih =>
    obtain ⟨rfl, rfl⟩ := h
    rw [lines_newline, lines_cons (by decide) (lines_newline t), chopped_cons (lines_ne_nil t), ih]
    rfl
  | case4 c d t h ih =>
    by_cases hc : c = '\n'
    · subst hc
      rw [lines_newline, lines_newline, chopped_cons (lines_ne_nil _), ih]
      rfl
    · obtain ⟨l, ls, hls⟩ := List.exists_cons_of_ne_nil (lines_ne_nil (d :: t))
      rw [hls] at ih
      rw [lines_cons hc hls]
      cases ls with
      | nil => exact lines_cons hc ih
      | cons m ls =>
        rw [chopped_cons (List.cons_ne_nil m ls)] at ih
        have hchop : chop (c :: l) = c :: chop l := by
          refine chop_cons ?_
          intro hl hreturn
          refine h ⟨hreturn, ?_⟩
          by_contra hd
          obtain ⟨k, ks, hks⟩ := List.exists_cons_of_ne_nil (lines_ne_nil t)
          rw [lines_cons hd hks, hl] at hls
          cases hls
        rw [lines_cons hc ih, chopped_cons (List.cons_ne_nil m ls), hchop]

lemma thinned_dropReturns (t : Text) : Thinned t (dropReturns t) := by
  fun_induction dropReturns t with
  | case1 => exact .nil
  | case2 c => exact .refl [c]
  | case3 c d t h ih =>
    obtain ⟨rfl, rfl⟩ := h
    exact .drop rfl (.keep ih)
  | case4 c d t h ih => exact .keep ih

/-! ## The lines of a layout -/

/-- A line behind the margin is laid out as it is, with or without its carriage return. -/
lemma laidLine_chop {margin : Text} (hmargin : isBlankText margin = true) (l : Text) :
    LaidLine margin (chop l) (chop (indented margin l)) := by
  by_cases hl : l = []
  · subst hl
    exact .blank rfl rfl (absurd rfl)
  · have hindented : indented margin l = margin ++ l := by simp [indented, hl]
    rw [hindented, chop_append hl]
    cases hblank : isBlankText (chop l) with
    | true =>
      refine .blank hblank ?_ fun _ => List.prefix_append ..
      rw [isBlankText_append, hmargin, hblank]
      rfl
    | false => exact .solid hblank

lemma layOutLines_ne_nil (block : BlockLayout) (t : Text) : layOutLines block (lines t) ≠ [] := by
  obtain ⟨l, ls, hls⟩ := List.exists_cons_of_ne_nil (lines_ne_nil t)
  rw [hls]
  exact List.cons_ne_nil _ _

lemma not_mem_indented {margin l : Text} (hmargin : '\n' ∉ margin) (hl : '\n' ∉ l) :
    '\n' ∉ indented margin l := by
  unfold indented
  split
  · simp
  · simp [hmargin, hl]

lemma not_mem_of_mem_layOutLines (block : BlockLayout) (hmargin : '\n' ∉ block.margin)
    {ls : List Text} (hls : ∀ l ∈ ls, '\n' ∉ l) : ∀ l ∈ layOutLines block ls, '\n' ∉ l := by
  cases ls with
  | nil => simp [layOutLines]
  | cons first rest =>
    rw [List.forall_mem_cons] at hls
    rw [layOutLines, List.forall_mem_cons]
    constructor
    · split
      · exact not_mem_indented hmargin hls.1
      · exact hls.1
    · intro l hl
      obtain ⟨m, hm, rfl⟩ := List.mem_map.1 hl
      exact not_mem_indented hmargin (hls.2 m hm)

/-- The line of the opening quotes, if the content starts behind it. -/
def BlockLayout.openingLines (block : BlockLayout) : List Text :=
  if block.opensOnNewLine then [[]] else []

/-- The lines of a content, with those of the quotes.  The opening quotes put one line in front of
the text and the closing ones add one behind it, each where the layout gives them a line of their
own; in between, every line is one line of the text. -/
lemma lines_layOut {block : BlockLayout} (hblock : block.Sound) (t : Text) :
    lines (layOut t block) =
      block.openingLines ++ (layOutLines block (lines t) ++ block.closingLines) := by
  have hne := layOutLines_ne_nil block t
  have hlines := not_mem_of_mem_layOutLines block hblock.marginLine
    (fun l => not_mem_of_mem_lines (t := t) (l := l))
  generalize hmiddle : layOutLines block (lines t) = middle at hne hlines
  have hclosed : unlines (middle ++ block.closingLines) =
      unlines middle ++ if block.closesOnOwnLine then '\n' :: block.closingIndent else [] := by
    unfold BlockLayout.closingLines
    split
    · exact unlines_concat hne _
    · rw [List.append_nil, List.append_nil]
  have hopened : layOut t block =
      unlines (block.openingLines ++ (middle ++ block.closingLines)) := by
    unfold layOut BlockLayout.openingLines
    rw [hmiddle, List.append_assoc, ← hclosed]
    split
    · rw [List.singleton_append, List.singleton_append,
        unlines_cons (List.append_ne_nil_of_left_ne_nil hne _)]
      rfl
    · rfl
  rw [hopened, lines_unlines]
  · exact List.append_ne_nil_of_right_ne_nil _ (List.append_ne_nil_of_left_ne_nil hne _)
  · intro l hl
    unfold BlockLayout.openingLines BlockLayout.closingLines at hl
    simp only [List.mem_append] at hl
    rcases hl with hl | hl | hl
    · split at hl
      · obtain rfl := List.mem_singleton.1 hl
        simp
      · cases hl
    · exact hlines l hl
    · split at hl
      · obtain rfl := List.mem_singleton.1 hl
        exact hblock.closingLine
      · cases hl

/-! ## Texts without line breaks at their ends -/

/-- A text that neither starts nor ends with a line break. -/
structure Unbroken (t : Text) : Prop where
  head : ∀ c ∈ t.head?, c ≠ '\n' ∧ c ≠ '\r'
  last : ∀ c ∈ t.getLast?, c ≠ '\n' ∧ c ≠ '\r'

lemma chop_of_getLast? {l : Text} (h : ∀ c ∈ l.getLast?, c ≠ '\r') : chop l = l :=
  if_neg fun hlast => h _ hlast rfl

lemma chopped_of_getLast? {ls : List Text} (h : ∀ l ∈ ls.getLast?, chop l = l) :
    chopped ls = ls.map chop := by
  rcases List.eq_nil_or_concat ls with rfl | ⟨ms, l, rfl⟩
  · rfl
  · have hl : chop l = l := h l (by simp)
    simp [List.concat_eq_append, chopped_concat, hl]

/-- The last line is laid out as it is.  It may be the first line as well, and then it has a margin
only where the text starts on a line of its own. -/
lemma chop_of_mem_layOutLines (block : BlockLayout) {ls : List Text}
    (h : ∀ l ∈ ls.getLast?, l ≠ [] ∧ chop l = l) :
    ∀ l ∈ (layOutLines block ls).getLast?, chop l = l := by
  have hindented : ∀ l : Text, l ≠ [] ∧ chop l = l →
      chop (indented block.margin l) = indented block.margin l := by
    intro l ⟨hne, hl⟩
    have heq : indented block.margin l = block.margin ++ l := by simp [indented, hne]
    rw [heq, chop_append hne, hl]
  cases ls with
  | nil => simp [layOutLines]
  | cons first rest =>
    rcases List.eq_nil_or_concat rest with rfl | ⟨ms, last, rfl⟩
    · have hfirst := h first rfl
      intro l hl
      simp only [layOutLines, List.map_nil, List.getLast?_singleton, Option.mem_some_iff] at hl
      rw [← hl]
      split
      · exact hindented first hfirst
      · exact hfirst.2
    · have hend : (first :: ms.concat last).getLast? = some last := by
        rw [List.concat_eq_append, ← List.cons_append, List.getLast?_concat]
      have hlast := h last hend
      intro l hl
      simp only [layOutLines, List.concat_eq_append, List.map_append, List.map_cons, List.map_nil,
        ← List.cons_append, List.getLast?_concat, Option.mem_some_iff] at hl
      rw [← hl]
      exact hindented last hlast

namespace Unbroken

variable {t : Text}

/-- The first line starts as the text does. -/
lemma exists_first (h : Unbroken t) (hne : t ≠ []) :
    ∃ c l ls, lines t = (c :: l) :: ls ∧ c ≠ '\r' := by
  obtain ⟨c, u, rfl⟩ := List.exists_cons_of_ne_nil hne
  obtain ⟨l, ls, hls⟩ := List.exists_cons_of_ne_nil (lines_ne_nil u)
  obtain ⟨hline, hreturn⟩ := h.head c rfl
  exact ⟨c, l, ls, lines_cons hline hls, hreturn⟩

/-- The last line ends as the text does. -/
lemma last_line (h : Unbroken t) (hne : t ≠ []) :
    ∀ l ∈ (lines t).getLast?, l ≠ [] ∧ chop l = l := by
  intro l hl
  rcases List.eq_nil_or_concat (lines t) with hls | ⟨ls, m, hls⟩
  · exact absurd hls (lines_ne_nil t)
  · obtain rfl : m = l := by simpa [hls] using hl
    have htext : t = unlines (ls ++ [m]) := by rw [← List.concat_eq_append, ← hls, unlines_lines]
    have hm : m ≠ [] ∧ t.getLast? = m.getLast? := by
      by_cases hnil : ls = []
      · subst hnil
        have hm : t = m := htext
        exact ⟨hm ▸ hne, by rw [hm]⟩
      · rw [unlines_concat hnil] at htext
        have hm : m ≠ [] := by
          rintro rfl
          exact (h.last '\n' (by rw [htext]; simp)).1 rfl
        refine ⟨hm, ?_⟩
        rw [htext, List.getLast?_append_of_ne_nil _ (List.cons_ne_nil _ _), List.getLast?_cons,
          List.getLast?_eq_some_getLast hm]
        rfl
    refine ⟨hm.1, chop_of_getLast? fun c hc => (h.last c ?_).2⟩
    rwa [hm.2]

lemma lines_dropReturns (h : Unbroken t) (hne : t ≠ []) :
    lines (dropReturns t) = (lines t).map chop := by
  rw [Host.lines_dropReturns, chopped_of_getLast? fun l hl => (h.last_line hne l hl).2]

/-- The lines of the content that a text is laid out in. -/
lemma lines_content (h : Unbroken t) (hne : t ≠ []) {block : BlockLayout} (hblock : block.Sound) :
    lines (dropReturns (layOut t block)) =
      block.openingLines ++ ((layOutLines block (lines t)).map chop ++ block.closingLines) := by
  have hmiddle := layOutLines_ne_nil block t
  have hlast := chop_of_mem_layOutLines block (h.last_line hne)
  have hclosed : chopped (layOutLines block (lines t) ++ block.closingLines) =
      (layOutLines block (lines t)).map chop ++ block.closingLines := by
    unfold BlockLayout.closingLines
    split
    · exact chopped_concat _ _
    · rw [List.append_nil, List.append_nil, chopped_of_getLast? hlast]
  rw [Host.lines_dropReturns, lines_layOut hblock, ← hclosed]
  unfold BlockLayout.openingLines
  split
  · exact chopped_cons (List.append_ne_nil_of_left_ne_nil hmiddle _) []
  · rfl

/-- The lines of a text are divided when its content is read.  The first line is in line with the
opening quotes or has a margin like the others; in both cases the margin that was put in front of a
line is in front of it when its end has been chopped. -/
lemma exists_division (h : Unbroken t) (hne : t ≠ []) {block : BlockLayout}
    (hblock : block.Sound) :
    ∃ opening inline kept laid closing, Division block (lines (dropReturns t))
      (lines (dropReturns (layOut t block))) opening inline kept laid closing := by
  obtain ⟨c, l, ls, hlines, hc⟩ := h.exists_first hne
  have hlast := h.last_line hne
  have hlaid : ∀ ms : List Text, List.Forall₂ (LaidLine block.margin) (ms.map chop)
      ((ms.map (indented block.margin)).map chop) := by
    intro ms
    rw [List.map_map, List.forall₂_map_left_iff, List.forall₂_map_right_iff, List.forall₂_same]
    intro m hm
    exact laidLine_chop hblock.margin m
  rw [h.lines_content hne hblock, h.lines_dropReturns hne, hlines]
  rw [hlines] at hlast
  have hend : ∀ ms : List Text, (∀ m ∈ ms.getLast?, m ∈ ((c :: l) :: ls).getLast?) →
      ∀ m ∈ (ms.map chop).getLast?, m ≠ [] := by
    intro ms hms m hm
    rw [List.getLast?_map] at hm
    obtain ⟨k, hk, rfl⟩ := Option.map_eq_some_iff.1 hm
    obtain ⟨hk, heq⟩ := hlast k (hms k hk)
    rwa [heq]
  unfold BlockLayout.openingLines
  cases hopens : block.opensOnNewLine with
  | true =>
    simp only [layOutLines, hopens, if_true]
    exact exists_division_of_opens hblock hopens (List.cons_ne_nil _ _) (hlaid ((c :: l) :: ls))
      (hend _ fun m hm => hm)
  | false =>
    simp only [layOutLines, hopens, Bool.false_eq_true, if_false, List.nil_append, List.map_cons,
      List.cons_append]
    refine exists_division_of_inline hblock hopens (hlaid ls) ?_ (hend ls fun m hm => ?_)
    · rw [chop_cons fun _ => hc]
      exact List.cons_ne_nil _ _
    · rw [List.getLast?_cons, hm]
      rfl

end Unbroken

/-! ## Layouts that are read -/

/-- A margin is made of blanks, all on one line. -/
lemma isBlankText_marginOf {known : Option Text} {ls : List Text}
    (hknown : ∀ k ∈ known, isBlankText k = true ∧ '\n' ∉ k) (hls : ∀ l ∈ ls, '\n' ∉ l) :
    isBlankText ((marginOf known ls).getD []) = true ∧ '\n' ∉ (marginOf known ls).getD [] := by
  cases hmargin : marginOf known ls with
  | none => exact ⟨rfl, List.not_mem_nil⟩
  | some m =>
    obtain ⟨hk, hl⟩ := prefix_of_marginOf hmargin
    rw [Option.getD_some]
    cases known with
    | some k =>
      obtain ⟨hblank, hline⟩ := hknown k rfl
      have hbegins := hk k rfl
      exact ⟨List.all_eq_true.2 fun c hc => List.all_eq_true.1 hblank c (hbegins.subset hc),
        fun hmem => hline (hbegins.subset hmem)⟩
    | none =>
      cases ls with
      | nil => cases hmargin
      | cons l ls =>
        have hbegins := hl l (List.mem_cons_self ..)
        refine ⟨List.all_eq_true.2 fun c hc => List.mem_takeWhile_imp (hbegins.subset hc), ?_⟩
        intro hmem
        exact hls l (List.mem_cons_self ..)
          ((List.takeWhile_prefix _).subset (hbegins.subset hmem))

/-- The layout of a content that was read could be read again.  The margin is taken of the blank
line in front of the closing quotes as well, where there is one; so this line starts with the
margin, which is what the last part of soundness asks for. -/
lemma sound_strip (content : Text) (stripTrailing : Bool) :
    (strip content stripTrailing).2.Sound := by
  unfold strip
  extract_lets content all opens body closes closing kept inline known margin
  have hbody : ∀ l ∈ body, '\n' ∉ l := by
    intro l hl
    refine not_mem_of_mem_lines (t := content) ?_
    unfold body at hl
    split at hl
    · exact List.mem_of_mem_drop hl
    · exact hl
  have hkept : ∀ l ∈ (kept.drop inline).filter (!isBlankText ·), '\n' ∉ l := by
    intro l hl
    have hl := List.mem_of_mem_drop (List.mem_of_mem_filter hl)
    refine hbody l ?_
    unfold kept at hl
    split at hl
    · exact List.dropLast_subset _ hl
    · exact hl
  have hclosing : isBlankText closing = true ∧ '\n' ∉ closing := by
    unfold closing
    split
    · rename_i hcloses
      unfold closes at hcloses
      cases hlast : body.getLast? with
      | none => exact ⟨rfl, List.not_mem_nil⟩
      | some l =>
        rw [hlast, Bool.and_eq_true] at hcloses
        exact ⟨hcloses.1, hbody l (List.mem_of_getLast? hlast)⟩
    · exact ⟨rfl, List.not_mem_nil⟩
  have hknown : ∀ k ∈ known, isBlankText k = true ∧ '\n' ∉ k := by
    intro k hk
    unfold known at hk
    split at hk
    · exact Option.mem_some_iff.1 hk ▸ hclosing
    · cases hk
  obtain ⟨hmargin, hline⟩ := isBlankText_marginOf hknown hkept
  refine ⟨hmargin, hclosing.1, hline, hclosing.2, ?_⟩
  intro hcloses
  have hsome : known = some closing := if_pos hcloses
  obtain ⟨m, hm⟩ := exists_marginOf known ((kept.drop inline).filter (!isBlankText ·))
    (.inl (by rw [hsome]; exact Option.some_ne_none closing))
  have hbegins := (prefix_of_marginOf hm).1 closing (by rw [hsome]; rfl)
  change (marginOf known ((kept.drop inline).filter (!isBlankText ·))).getD [] <+: closing
  rwa [hm]

/-! ## Reading layouts -/

/-- The lines of nothing are divided, and nothing is left.  The empty line is margined, in line with
the quotes, or taken for the line of one of the quotes, depending on where these stand. -/
lemma exists_divides_nil {block : BlockLayout} (hclosing : isBlankText block.closingIndent = true) :
    ∃ opening inline margined closing,
      Divides (block.openingLines ++ ([[]] ++ block.closingLines)) opening inline margined closing ∧
        ∀ margin stripTrailing,
          unlines ((inline ++ margined.map (unindent margin)).map (readLine stripTrailing)) =
            [] := by
  have hread : ∀ stripTrailing, readLine stripTrailing [] = [] := by
    intro stripTrailing
    cases stripTrailing <;> rfl
  unfold BlockLayout.openingLines BlockLayout.closingLines
  cases block.opensOnNewLine with
  | true =>
    cases block.closesOnOwnLine with
    | true =>
      refine ⟨[[]], [], [[]], [block.closingIndent],
        ⟨rfl, .inl ⟨rfl, rfl, rfl⟩, .inl ⟨_, rfl, hclosing⟩⟩, ?_⟩
      exact fun _ stripTrailing => hread stripTrailing
    | false =>
      exact ⟨[[]], [], [], [[]], ⟨rfl, .inl ⟨rfl, rfl, rfl⟩, .inl ⟨_, rfl, rfl⟩⟩, fun _ _ => rfl⟩
  | false =>
    cases block.closesOnOwnLine with
    | true =>
      exact ⟨[[]], [], [], [block.closingIndent],
        ⟨rfl, .inl ⟨rfl, rfl, rfl⟩, .inl ⟨_, rfl, hclosing⟩⟩, fun _ _ => rfl⟩
    | false =>
      refine ⟨[], [[]], [], [], ⟨rfl, .inr ⟨rfl, rfl, rfl⟩, .inr ⟨rfl, by simp⟩⟩, ?_⟩
      exact fun _ stripTrailing => hread stripTrailing

/-- Nothing laid out is read as nothing. -/
lemma strip_layOut_nil {block : BlockLayout} (hblock : block.Sound) (stripTrailing : Bool) :
    (strip (layOut [] block) stripTrailing).1 = [] := by
  have hmiddle : layOutLines block (lines []) = [[]] := by
    change [if block.opensOnNewLine then indented block.margin [] else []] = [[]]
    cases block.opensOnNewLine <;> rfl
  have hlines : lines (dropReturns (layOut [] block)) =
      block.openingLines ++ ([[]] ++ block.closingLines) := by
    rw [lines_dropReturns, lines_layOut hblock, hmiddle]
    unfold BlockLayout.openingLines BlockLayout.closingLines
    cases block.opensOnNewLine <;> cases block.closesOnOwnLine <;> rfl
  obtain ⟨opening, inline, margined, closing, hdivides, hnil⟩ := exists_divides_nil hblock.closing
  rw [← hlines] at hdivides
  rw [hdivides.strip_eq, hnil]

/-- **What is read** of a text that was laid out is the text without some of its blanks.  So what
can go wrong with a layout is that blanks of the text are lost, and nothing else. -/
theorem thinned_strip_layOut {t : Text} (ht : Unbroken t) {block : BlockLayout}
    (hblock : block.Sound) (stripTrailing : Bool) :
    Thinned t (strip (layOut t block) stripTrailing).1 := by
  by_cases hne : t = []
  · subst hne
    rw [strip_layOut_nil hblock]
    exact .nil
  · obtain ⟨opening, inline, kept, laid, closing, hdivision⟩ := ht.exists_division hne hblock
    have hthinned := hdivision.thinned_strip hblock stripTrailing
    rw [unlines_lines] at hthinned
    exact (thinned_dropReturns t).trans hthinned

/-- A layout keeps a text: no carriage return is taken for a part of a line break, no blank line is
lost, and no indentation is taken for a margin. -/
structure Keeps (block : BlockLayout) (t : Text) : Prop where
  returns : dropReturns t = t
  blankLines : KeepsBlankLines block (lines t)
  margin : KeepsMargin block (lines t)

instance (block : BlockLayout) (t : Text) : Decidable (Keeps block t) :=
  decidable_of_iff
    (dropReturns t = t ∧ KeepsBlankLines block (lines t) ∧ KeepsMargin block (lines t))
    ⟨fun h => ⟨h.1, h.2.1, h.2.2⟩, fun h => ⟨h.returns, h.blankLines, h.margin⟩⟩

lemma keeps_nil (block : BlockLayout) : Keeps block [] where
  returns := rfl
  blankLines := by
    refine .inr ?_
    intro l hl hne
    exact absurd (List.mem_singleton.1 hl) hne
  margin := by
    left
    unfold countedLines
    split <;> rfl

/-- **A text is read back** from a layout that keeps it, and from no other, as long as no blanks at
the ends of its lines are taken off. -/
theorem strip_layOut_iff {t : Text} (ht : Unbroken t) {block : BlockLayout} (hblock : block.Sound)
    {stripTrailing : Bool} (hread : ∀ l ∈ lines (dropReturns t), readLine stripTrailing l = l) :
    (strip (layOut t block) stripTrailing).1 = t ↔ Keeps block t := by
  by_cases hne : t = []
  · subst hne
    exact iff_of_true (strip_layOut_nil hblock _) (keeps_nil block)
  · obtain ⟨opening, inline, kept, laid, closing, hdivision⟩ := ht.exists_division hne hblock
    have hthinned := hdivision.thinned_strip hblock stripTrailing
    rw [unlines_lines] at hthinned
    have hsame (hreturns : dropReturns t = t) :
        (strip (layOut t block) stripTrailing).1 = t ↔
          KeepsBlankLines block (lines t) ∧ KeepsMargin block (lines t) := by
      rw [hreturns] at hdivision hread
      have hiff := hdivision.strip_eq_iff hblock hread (fun l hl => not_mem_of_mem_lines hl)
        (by rwa [unlines_lines])
      rwa [unlines_lines] at hiff
    constructor
    · intro heq
      rw [heq] at hthinned
      have hreturns : dropReturns t = t :=
        ((thinned_dropReturns t).eq_of_length hthinned.sublist.length_le)
      obtain ⟨hblank, hmargin⟩ := (hsame hreturns).1 heq
      exact ⟨hreturns, hblank, hmargin⟩
    · intro hkeeps
      exact (hsame hkeeps.returns).2 ⟨hkeeps.blankLines, hkeeps.margin⟩

end SqlInlay.Host
