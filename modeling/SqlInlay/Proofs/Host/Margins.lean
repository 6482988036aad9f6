import SqlInlay.Host.TextBlock
import SqlInlay.Proofs.Splice
import SqlInlay.Proofs.Text.Thinning

/-!
# Margins put on and taken off

A text that stands in a block is laid out on lines of its own, each behind a margin, and what the
literal then holds is found by taking off what its lines have in common.  The two are not inverse to
each other.  `strip` does not know how the text was laid out: it takes a blank line at either end
for that of the quotes, empties lines that are blank, takes blanks off the ends of lines in some
languages, and takes off all that the lines have in common, be it more than the margin.  This module
says what `strip` makes of a text that `layOut` has laid out, and when that is the text.

**Dividing.**  `Divides` says how the lines of a content are told apart: the line of the opening
quotes, a line that goes on behind them, lines behind the margin, the line of the closing quotes.
`Divides.strip_eq` gives the outcome of `strip` from such a division, and from there on the
definition of `strip` is not opened again.

**Laid out lines.**  `Division` divides the layout of a text.

* `exists_division_of_opens`, `exists_division_of_inline` — every sound layout has one, whether the
  text starts on a line of its own or behind the quotes.
* `Ends` — at the end of the lines the line of the closing quotes is found again, or a blank line is
  taken for it.

**What is read.**  In any case it is the text, perhaps without some blanks (`thinned_strip`).  It is
the text exactly if no blank line is lost (`KeepsBlankLines`) and nothing but the margin is taken
off (`KeepsMargin`): this is `strip_eq_iff`.  Both conditions are decided by the lines of the text
and the layout alone.
-/

namespace SqlInlay.Host

open SqlInlay.Text

/-! ## Common openings -/

lemma indentOf_append {m : Text} (hm : isBlankText m = true) (l : Text) :
    indentOf (m ++ l) = m ++ indentOf l :=
  List.takeWhile_append_of_pos (List.all_eq_true.1 hm)

/-- A margin that all lines have is part of what they have in common. -/
lemma marginOf_append {m : Text} (hm : isBlankText m = true) (known : Option Text)
    (ls : List Text) :
    marginOf (known.map (m ++ ·)) (ls.map (m ++ ·)) = (marginOf known ls).map (m ++ ·) := by
  induction ls generalizing known with
  | nil => cases known <;> rfl
  | cons l ls ih =>
    cases known with
    | none =>
      simp only [Option.map_none, List.map_cons, marginOf, indentOf_append hm]
      exact ih (some _)
    | some k =>
      simp only [Option.map_some, List.map_cons, marginOf, indentOf_append hm,
        commonOpening_append]
      exact ih (some _)

/-- What lines have in common, all of them start with. -/
lemma prefix_of_marginOf {known : Option Text} {ls : List Text} {m : Text}
    (h : marginOf known ls = some m) :
    (∀ k ∈ known, m <+: k) ∧ ∀ l ∈ ls, m <+: indentOf l := by
  induction ls generalizing known with
  | nil =>
    obtain rfl : known = some m := h
    refine ⟨?_, by simp⟩
    intro k hk
    obtain rfl := Option.mem_some_iff.1 hk
    exact List.prefix_refl _
  | cons l ls ih =>
    cases known with
    | none =>
      obtain ⟨hk, hls⟩ := ih h
      exact ⟨by simp, List.forall_mem_cons.2 ⟨hk _ rfl, hls⟩⟩
    | some k =>
      obtain ⟨hk, hls⟩ := ih h
      have hcommon := hk _ rfl
      obtain ⟨s, hs⟩ := exists_eq_commonOpening_append k (indentOf l)
      obtain ⟨t, ht⟩ := commonOpening_prefix k (indentOf l)
      refine ⟨fun k' hk' => ?_, List.forall_mem_cons.2 ⟨hcommon.trans ⟨t, ht.symm⟩, hls⟩⟩
      rw [← Option.mem_some_iff.1 hk']
      exact hcommon.trans ⟨s, hs.symm⟩

lemma exists_marginOf (known : Option Text) (ls : List Text) (h : known ≠ none ∨ ls ≠ []) :
    ∃ m, marginOf known ls = some m := by
  induction ls generalizing known with
  | nil =>
    obtain ⟨k, rfl⟩ := Option.ne_none_iff_exists'.1 (h.resolve_right (by simp))
    exact ⟨k, rfl⟩
  | cons l ls ih =>
    cases known with
    | none => exact ih _ (.inl (by simp))
    | some k => exact ih _ (.inl (by simp))

/-! ## Taking margins off

`strip` decides first which lines belong to the quotes and then what the others have in common.  The
lines that decide the second are those that are not blank, and the line of the closing quotes.
-/

/-- The first of several lines is blank, and taken for the rest of the line of the quotes. -/
def startsBehindBlank (all : List Text) : Bool := all.length > 1 && all.head?.any isBlankText

/-- A line of a content as it is read; some languages take blanks off its end. -/
def readLine (stripTrailing : Bool) (line : Text) : Text :=
  if stripTrailing then trimEndWhile isLineEndBlank line else line

/-- How the lines of a content are divided: a blank line of the opening quotes, the line that goes
on behind the quotes, lines behind the margin, and the line of the closing quotes. -/
structure Divides (all opening inline margined closing : List Text) : Prop where
  all_eq : all = opening ++ (inline ++ (margined ++ closing))
  opens : (startsBehindBlank all = true ∧ opening.length = 1 ∧ inline = []) ∨
    (startsBehindBlank all = false ∧ opening = [] ∧ inline.length = 1)
  closes : (∃ z, closing = [z] ∧ isBlankText z = true) ∨
    (closing = [] ∧ ∀ z ∈ margined.getLast?, isBlankText z = false)

namespace Divides

variable {all opening inline margined closing : List Text}

/-- A blank last line is taken for that of the closing quotes, unless it is the only one. -/
lemma closes_eq (h : Divides all opening inline margined closing) (opens : Bool)
    (hinline : inline.length = if opens then 0 else 1) :
    ((inline ++ (margined ++ closing)).getLast?.any isBlankText &&
      (decide ((inline ++ (margined ++ closing)).length > 1) || opens)) = !closing.isEmpty := by
  rcases h.closes with ⟨z, rfl, hz⟩ | ⟨rfl, hlast⟩
  · have hlast : (inline ++ (margined ++ [z])).getLast? = some z := by
      rw [← List.append_assoc, List.getLast?_concat]
    rw [hlast]
    cases opens with
    | true => simp [hz]
    | false => simp [hz, hinline]
  · rcases List.eq_nil_or_concat margined with rfl | ⟨ms, y, rfl⟩
    · cases opens with
      | true =>
        obtain rfl := List.length_eq_zero_iff.1 hinline
        rfl
      | false =>
        obtain ⟨x, rfl⟩ := List.length_eq_one_iff.1 hinline
        simp
    · have hy : isBlankText y = false := hlast y (by simp)
      simp [← List.append_assoc, hy]

lemma known_eq (h : Divides all opening inline margined closing) :
    (if (!closing.isEmpty) = true then
      some (if (!closing.isEmpty) = true then
        (inline ++ (margined ++ closing)).getLast?.getD [] else [])
      else none) = closing.head? := by
  rcases h.closes with ⟨z, rfl, -⟩ | ⟨rfl, -⟩
  · simp [← List.append_assoc]
  · rfl

lemma kept_eq (h : Divides all opening inline margined closing) :
    (if (!closing.isEmpty) = true then (inline ++ (margined ++ closing)).dropLast
      else inline ++ (margined ++ closing)) = inline ++ margined := by
  rcases h.closes with ⟨z, rfl, -⟩ | ⟨rfl, -⟩
  · simp [← List.append_assoc]
  · simp

/-- The margin that is taken off. -/
def margin (margined closing : List Text) : Text :=
  (marginOf closing.head? (margined.filter (!isBlankText ·))).getD []

/-- What is left of a content are its lines without the margin.  Of the four parts that the lines
are divided into, the opening and the closing ones go, and those in line with the opening quotes are
kept as they are. -/
lemma strip_eq {content : Text}
    (h : Divides (lines (dropReturns content)) opening inline margined closing)
    (stripTrailing : Bool) :
    (strip content stripTrailing).1 =
      unlines ((inline ++ margined.map (unindent (margin margined closing))).map
        (readLine stripTrailing)) := by
  generalize hall : lines (dropReturns content) = all at h
  have hstart : (decide (all.length > 1) && all.head?.any isBlankText) = startsBehindBlank all :=
    rfl
  have hread : ∀ ls : List Text,
      (if stripTrailing then ls.map (trimEndWhile isLineEndBlank) else ls) =
        ls.map (readLine stripTrailing) := by
    intro ls
    cases stripTrailing with
    | true => rfl
    | false => exact (List.map_id' ls).symm
  have hknown := h.known_eq
  have hkept := h.kept_eq
  unfold strip margin
  rcases h.opens with ⟨hopens, hopening, rfl⟩ | ⟨hopens, rfl, hinline⟩
  · obtain ⟨o, rfl⟩ := List.length_eq_one_iff.1 hopening
    have hinner : all.drop 1 = [] ++ (margined ++ closing) := by
      rw [h.all_eq]
      rfl
    have hcloses := h.closes_eq true rfl
    simp only [List.nil_append] at hinner hcloses hknown hkept
    simp only [hall, hstart, hopens, if_true, hinner, hcloses, hknown, hkept, hread,
      List.nil_append, List.drop_zero, List.take_zero]
  · have hinner : all = inline ++ (margined ++ closing) := by
      rw [h.all_eq]
      rfl
    have hcloses := h.closes_eq false (by simpa using hinline)
    have htake : (inline ++ margined).take 1 = inline := by rw [← hinline]; exact List.take_left
    have hdrop : (inline ++ margined).drop 1 = margined := by
      rw [← hinline]
      exact List.drop_left
    simp only [hall, hstart, hopens, Bool.false_eq_true, if_false]
    rw [hinner]
    simp only [hcloses, hknown, hkept, hread, htake, hdrop]

end Divides

/-! ## Lines that are laid out

A line is laid out behind the margin, and a blank one may be left empty instead.  So the lines of
the layout correspond to those of the text one by one (`LaidLine`), and those that are not blank
have the margin in front of them.
-/

/-- A line of a text and the line that it is laid out as; of a blank one, less may be left.  An
empty line may do without the margin. -/
inductive LaidLine (margin : Text) : Text → Text → Prop
  | blank {l laid : Text} (hl : isBlankText l = true) (hlaid : isBlankText laid = true)
      (hmargin : l ≠ [] → margin <+: laid) : LaidLine margin l laid
  | solid {l : Text} (hl : isBlankText l = false) : LaidLine margin l (margin ++ l)

lemma isBlankText_append (s t : Text) :
    isBlankText (s ++ t) = (isBlankText s && isBlankText t) :=
  List.all_append

namespace LaidLine

variable {margin l laid : Text}

lemma isBlankText_eq (hmargin : isBlankText margin = true) (h : LaidLine margin l laid) :
    isBlankText laid = isBlankText l := by
  cases h with
  | blank hl hlaid => rw [hl, hlaid]
  | solid hl => rw [isBlankText_append, hmargin, Bool.true_and]

lemma indented (hmargin : isBlankText margin = true) (l : Text) :
    LaidLine margin l (indented margin l) := by
  cases l with
  | nil => exact .blank rfl rfl (absurd rfl)
  | cons c l =>
    cases hl : isBlankText (c :: l) with
    | true =>
      refine .blank hl ?_ fun _ => List.prefix_append ..
      exact (isBlankText_append _ _).trans (by rw [hmargin, hl]; rfl)
    | false => exact .solid hl

/-- Behind the margin stand the lines that are not blank. -/
lemma filter_eq (hmargin : isBlankText margin = true) {ls ms : List Text}
    (h : List.Forall₂ (LaidLine margin) ls ms) :
    ms.filter (!isBlankText ·) = (ls.filter (!isBlankText ·)).map (margin ++ ·) := by
  induction h with
  | nil => rfl
  | @cons l m ls ms hl h ih =>
    have hblank := hl.isBlankText_eq hmargin
    cases hl with
    | blank hl => simp [hl, hblank, ih]
    | solid hl => simp [hl, hblank, ih]

/-- A margin that the lines and the line of the closing quotes have is taken off with what else
they have in common. -/
lemma margin_eq (hmargin : isBlankText margin = true) {ls ms closing : List Text}
    (h : List.Forall₂ (LaidLine margin) ls ms) (hclosing : ∀ z ∈ closing, margin <+: z)
    (hls : ls.filter (!isBlankText ·) ≠ []) :
    ∃ own, marginOf (closing.head?.map (·.drop margin.length)) (ls.filter (!isBlankText ·)) =
        some own ∧ Divides.margin ms closing = margin ++ own := by
  obtain ⟨own, hown⟩ := exists_marginOf (closing.head?.map (·.drop margin.length)) _ (.inr hls)
  have hknown : closing.head? = (closing.head?.map (·.drop margin.length)).map (margin ++ ·) := by
    cases closing with
    | nil => rfl
    | cons z zs =>
      obtain ⟨t, rfl⟩ := hclosing z (List.mem_cons_self ..)
      simp
  refine ⟨own, hown, ?_⟩
  rw [Divides.margin, filter_eq hmargin h, hknown, marginOf_append hmargin, hown]
  rfl

end LaidLine

/-- Nothing blank may be lost: there is one line, between the quotes, or no line is blank without
being empty. -/
def KeepsBlankLines (block : BlockLayout) (ls : List Text) : Prop :=
  (ls.length = 1 ∧ block.opensOnNewLine = false ∧ block.closesOnOwnLine = false) ∨
    ∀ l ∈ ls, l ≠ [] → isBlankText l = false

instance (block : BlockLayout) (ls : List Text) : Decidable (KeepsBlankLines block ls) :=
  inferInstanceAs (Decidable (_ ∨ _))

/-- A layout that could have been read: blanks make up the margin and stand in front of the closing
quotes, behind the margin. -/
structure BlockLayout.Sound (block : BlockLayout) : Prop where
  margin : isBlankText block.margin = true
  closing : isBlankText block.closingIndent = true
  marginLine : '\n' ∉ block.margin
  closingLine : '\n' ∉ block.closingIndent
  closingMargin : block.closesOnOwnLine = true → block.margin <+: block.closingIndent

/-- The line of the closing quotes, if they have one. -/
def BlockLayout.closingLines (block : BlockLayout) : List Text :=
  if block.closesOnOwnLine then [block.closingIndent] else []

/-- How the lines `ls` of a text are divided when their layout `all` is read: `inline` and `kept`
are found again, the latter laid out as `laid`.  Either that is all of them, or a blank line was
taken for that of the quotes. -/
structure Division (block : BlockLayout) (ls all opening inline kept laid closing : List Text) :
    Prop where
  divides : Divides all opening inline laid closing
  laid : List.Forall₂ (LaidLine block.margin) kept laid
  closingMargin : ∀ z ∈ closing, block.margin <+: z
  thinned : Thinned (unlines ls) (unlines (inline ++ kept))
  whole : (inline ++ kept = ls ∧ inline.length = (if block.opensOnNewLine then 0 else 1) ∧
      closing = block.closingLines ∧
      ∀ l ∈ inline, isBlankText l = true → ls.length = 1 ∧ block.closesOnOwnLine = false) ∨
    ((inline ++ kept).length < ls.length ∧ ¬ KeepsBlankLines block ls)

/-- Where lines behind the margin end: with the line of the closing quotes, with a blank line that
is taken for it, or with a line that is not blank. -/
structure Ends (block : BlockLayout) (ls ms kept laid closing : List Text) : Prop where
  all_eq : ms ++ block.closingLines = laid ++ closing
  pairs : List.Forall₂ (LaidLine block.margin) kept laid
  closes : (∃ z, closing = [z] ∧ isBlankText z = true) ∨
    (closing = [] ∧ ∀ z ∈ laid.getLast?, isBlankText z = false)
  closingMargin : ∀ z ∈ closing, block.margin <+: z
  whole : (kept = ls ∧ closing = block.closingLines) ∨
    block.closesOnOwnLine = false ∧ ∃ l, ls = kept ++ [l] ∧ isBlankText l = true

namespace Ends

variable {block : BlockLayout} {ls ms kept laid closing : List Text}

lemma length_le (h : Ends block ls ms kept laid closing) : kept.length ≤ ls.length := by
  rcases h.whole with ⟨rfl, -⟩ | ⟨-, l, rfl, -⟩
  · exact Nat.le_refl _
  · simp

/-- Nothing but a blank line is missing. -/
lemma thinned (h : Ends block ls ms kept laid closing) (front : List Text) :
    Thinned (unlines (front ++ ls)) (unlines (front ++ kept)) := by
  rcases h.whole with ⟨rfl, -⟩ | ⟨-, l, rfl, hl⟩
  · exact .refl _
  · rw [← List.append_assoc]
    exact .unlines_concat hl _

end Ends

lemma exists_ends {block : BlockLayout} (hblock : block.Sound) {ls ms : List Text}
    (h : List.Forall₂ (LaidLine block.margin) ls ms) (hlast : ∀ l ∈ ls.getLast?, l ≠ []) :
    ∃ kept laid closing, Ends block ls ms kept laid closing := by
  cases hcloses : block.closesOnOwnLine with
  | true =>
    have hclosing : block.closingLines = [block.closingIndent] := if_pos hcloses
    refine ⟨ls, ms, [block.closingIndent], by rw [hclosing], h, .inl ⟨_, rfl, hblock.closing⟩, ?_,
      .inl ⟨rfl, hclosing.symm⟩⟩
    simpa using hblock.closingMargin hcloses
  | false =>
    have hclosing : block.closingLines = [] := if_neg (by simp [hcloses])
    rcases List.eq_nil_or_concat ms with rfl | ⟨ms, m, rfl⟩
    · exact ⟨ls, [], [], by rw [hclosing], h, .inr ⟨rfl, by simp⟩, by simp,
        .inl ⟨rfl, hclosing.symm⟩⟩
    · rw [List.concat_eq_append] at h ⊢
      have hkept := List.forall₂_take_append ls ms [m] h
      obtain ⟨l, tail, hl, hnil, htail⟩ :=
        List.forall₂_cons_right_iff.1 (List.forall₂_drop_append ls ms [m] h)
      obtain rfl := List.forall₂_nil_right_iff.1 hnil
      have hls : ls = ls.take ms.length ++ [l] := by rw [← htail, List.take_append_drop]
      have hne : l ≠ [] := hlast l (by rw [hls]; simp)
      have hblank := hl.isBlankText_eq hblock.margin
      cases hl with
      | blank hl hm hmargin =>
        refine ⟨_, ms, [m], by rw [hclosing, List.append_nil], hkept, .inl ⟨m, rfl, hm⟩, ?_,
          .inr ⟨hcloses, l, hls, hl⟩⟩
        simpa using hmargin hne
      | solid hl =>
        refine ⟨ls, ms ++ [block.margin ++ l], [], by rw [hclosing], h, .inr ⟨rfl, ?_⟩, by simp,
          .inl ⟨rfl, hclosing.symm⟩⟩
        simpa [hl] using hblank

/-- A blank line is lost, unless it is all there is between the quotes. -/
lemma not_keepsBlankLines {block : BlockLayout} {ls : List Text} {l : Text} (hmem : l ∈ ls)
    (hne : l ≠ []) (hl : isBlankText l = true)
    (hseveral : ls.length = 1 → block.opensOnNewLine = true ∨ block.closesOnOwnLine = true) :
    ¬ KeepsBlankLines block ls := by
  rintro (⟨hone, hinline, hinside⟩ | hsolid)
  · rcases hseveral hone with h | h
    · rw [hinline] at h
      cases h
    · rw [hinside] at h
      cases h
  · rw [hsolid l hmem hne] at hl
    cases hl

/-- A content that starts on a line of its own is divided behind that line. -/
lemma exists_division_of_opens {block : BlockLayout} (hblock : block.Sound)
    (hopens : block.opensOnNewLine = true) {ls ms : List Text} (hne : ls ≠ [])
    (h : List.Forall₂ (LaidLine block.margin) ls ms) (hlast : ∀ l ∈ ls.getLast?, l ≠ []) :
    ∃ opening inline kept laid closing,
      Division block ls ([] :: (ms ++ block.closingLines)) opening inline kept laid closing := by
  obtain ⟨kept, laid, closing, hends⟩ := exists_ends hblock h hlast
  have hstarts : startsBehindBlank ([] :: (ms ++ block.closingLines)) = true := by
    obtain ⟨m, ms, rfl⟩ : ∃ m ms', ms = m :: ms' := by
      cases h with
      | nil => exact absurd rfl hne
      | cons => exact ⟨_, _, rfl⟩
    rfl
  refine ⟨[[]], [], kept, laid, closing,
    ⟨by rw [hends.all_eq]; rfl, .inl ⟨hstarts, rfl, rfl⟩, hends.closes⟩, hends.pairs,
    hends.closingMargin, hends.thinned [], ?_⟩
  rcases hends.whole with ⟨rfl, hclosing⟩ | ⟨-, l, rfl, hl⟩
  · exact .inl ⟨rfl, by rw [hopens]; rfl, hclosing, by simp⟩
  · exact .inr ⟨by simp, not_keepsBlankLines (by simp) (hlast l (by simp)) hl fun _ => .inl hopens⟩

/-- A first line that is blank is taken for the rest of the line of the quotes, unless it is all
there is. -/
lemma division_of_blank {block : BlockLayout} {first : Text} {ls ms kept laid closing : List Text}
    (h : List.Forall₂ (LaidLine block.margin) ls ms) (hne : first ≠ [])
    (hends : Ends block ls ms kept laid closing)
    (hstarts : startsBehindBlank (first :: (ms ++ block.closingLines)) = true) :
    Division block (first :: ls) (first :: (ms ++ block.closingLines)) [first] [] kept laid
      closing := by
  obtain ⟨hblank, hmore⟩ : isBlankText first = true ∧ ms ++ block.closingLines ≠ [] := by
    simp only [startsBehindBlank, List.length_cons, List.head?_cons, Option.any_some,
      Bool.and_eq_true, decide_eq_true_eq] at hstarts
    exact ⟨hstarts.2, List.ne_nil_of_length_pos (by omega)⟩
  have hlength := hends.length_le
  refine ⟨⟨by rw [hends.all_eq]; rfl, .inl ⟨hstarts, rfl, rfl⟩, hends.closes⟩, hends.pairs,
    hends.closingMargin, (Thinned.unlines_cons hblank ls).trans (hends.thinned []),
    .inr ⟨?_, not_keepsBlankLines (List.mem_cons_self ..) hne hblank ?_⟩⟩
  · simp only [List.nil_append, List.length_cons]
    omega
  · intro hone
    right
    obtain rfl : ls = [] := by simpa using hone
    obtain rfl := List.forall₂_nil_left_iff.1 h
    by_contra hinside
    exact hmore (if_neg hinside)

/-- A first line is found again if it is not blank, or all there is.  A blank one with lines behind
it would be taken for the line of the opening quotes. -/
lemma division_of_inline {block : BlockLayout} (hopens : block.opensOnNewLine = false)
    {first : Text} {ls ms kept laid closing : List Text}
    (h : List.Forall₂ (LaidLine block.margin) ls ms) (hlast : ∀ l ∈ ls.getLast?, l ≠ [])
    (hends : Ends block ls ms kept laid closing)
    (hstarts : startsBehindBlank (first :: (ms ++ block.closingLines)) = false) :
    Division block (first :: ls) (first :: (ms ++ block.closingLines)) [] [first] kept laid
      closing := by
  have hblank : isBlankText first = true → ms ++ block.closingLines = [] := by
    intro hfirst
    simp only [startsBehindBlank, List.length_cons, List.head?_cons, Option.any_some, hfirst,
      Bool.and_true, decide_eq_false_iff_not] at hstarts
    exact List.length_eq_zero_iff.1 (by omega)
  refine ⟨⟨by rw [hends.all_eq]; rfl, .inr ⟨hstarts, rfl, rfl⟩, hends.closes⟩, hends.pairs,
    hends.closingMargin, hends.thinned [first], ?_⟩
  rcases hends.whole with ⟨rfl, hclosing⟩ | ⟨hinside, l, rfl, hl⟩
  · refine .inl ⟨rfl, by rw [hopens]; rfl, hclosing, ?_⟩
    intro l hmem hl
    obtain rfl := List.mem_singleton.1 hmem
    obtain ⟨rfl, hlines⟩ := List.append_eq_nil_iff.1 (hblank hl)
    refine ⟨by simp [h.length_eq], ?_⟩
    by_contra hown
    rw [BlockLayout.closingLines, if_pos (by simpa using hown)] at hlines
    cases hlines
  · refine .inr ⟨by simp, not_keepsBlankLines (by simp) (hlast l (by simp)) hl ?_⟩
    intro hone
    simp at hone

/-- A content that goes on behind its quotes is divided behind the first line, or has a blank first
line that is taken for the rest of the line of the quotes. -/
lemma exists_division_of_inline {block : BlockLayout} (hblock : block.Sound)
    (hopens : block.opensOnNewLine = false) {first : Text} {ls ms : List Text}
    (h : List.Forall₂ (LaidLine block.margin) ls ms) (hfirst : first ≠ [])
    (hlast : ∀ l ∈ ls.getLast?, l ≠ []) :
    ∃ opening inline kept laid closing,
      Division block (first :: ls) (first :: (ms ++ block.closingLines)) opening inline kept laid
        closing := by
  obtain ⟨kept, laid, closing, hends⟩ := exists_ends hblock h hlast
  cases hstarts : startsBehindBlank (first :: (ms ++ block.closingLines)) with
  | true => exact ⟨_, _, _, _, _, division_of_blank h hfirst hends hstarts⟩
  | false => exact ⟨_, _, _, _, _, division_of_inline hopens h hlast hends hstarts⟩

/-! ## Lines that are read

What the lines have in common is the margin and some indentation of their own (`exists_own`).  If
there is none of the latter, each line comes back; if there is some, each line has lost it.
-/

lemma thinned_trimEndWhile {p : Char → Bool} (hp : ∀ c, p c = true → isBlank c = true) (l : Text) :
    Thinned l (trimEndWhile p l) := by
  obtain ⟨tail, hsplit, htail⟩ := exists_eq_trimEndWhile_append p l
  have hblank : isBlankText tail = true := List.all_eq_true.2 fun c hc => hp c (htail c hc)
  have hthinned := (Thinned.refl (trimEndWhile p l)).append (.of_isBlankText hblank)
  rwa [← hsplit, List.append_nil] at hthinned

lemma isBlank_of_isLineEndBlank {c : Char} (h : isLineEndBlank c = true) : isBlank c = true := by
  simp only [isLineEndBlank, Bool.or_eq_true, beq_iff_eq] at h
  rcases h with (rfl | rfl) | rfl <;> rfl

lemma thinned_readLine (stripTrailing : Bool) (l : Text) :
    Thinned l (readLine stripTrailing l) := by
  unfold readLine
  split
  · exact thinned_trimEndWhile (fun c => isBlank_of_isLineEndBlank) l
  · exact .refl l

/-- The lines that have a say in the margin: all but blank ones, and but the first one where it
shares the line of the opening quotes. -/
def countedLines (block : BlockLayout) (ls : List Text) : List Text :=
  (if block.opensOnNewLine then ls else ls.drop 1).filter (!isBlankText ·)

/-- Nothing but the margin is taken off: beyond it the lines, and the line of the closing quotes,
have no indentation in common. -/
def KeepsMargin (block : BlockLayout) (ls : List Text) : Prop :=
  countedLines block ls = [] ∨
    marginOf (block.closingLines.head?.map (·.drop block.margin.length)) (countedLines block ls) =
      some []

instance (block : BlockLayout) (ls : List Text) : Decidable (KeepsMargin block ls) :=
  inferInstanceAs (Decidable (_ ∨ _))

namespace LaidLine

variable {margin own l laid : Text}

lemma unindent_blank (hmargin : isBlankText margin = true) (h : LaidLine margin l laid)
    (hl : isBlankText l = true) (taken : Text) : unindent taken laid = [] := by
  rw [unindent, if_pos ((h.isBlankText_eq hmargin).trans hl)]

/-- Behind the margin, the indentation that the lines have in common is taken off. -/
lemma unindent_solid (hmargin : isBlankText margin = true) (h : LaidLine margin l laid)
    (hl : isBlankText l = false) (hown : own <+: indentOf l) :
    l = own ++ unindent (margin ++ own) laid ∧ isBlankText own = true := by
  obtain ⟨rest, hrest⟩ := hown.trans (List.takeWhile_prefix isBlank)
  have hblank := h.isBlankText_eq hmargin
  cases h with
  | blank hl' => rw [hl] at hl'; cases hl'
  | solid =>
    have hafter : after? (margin ++ own) (margin ++ l) = some rest := by
      rw [← hrest, ← List.append_assoc]
      exact after?_append _ _
    refine ⟨?_, ?_⟩
    · rw [unindent, hblank, hl, if_neg Bool.false_ne_true, hafter]
      exact hrest.symm
    · exact List.all_eq_true.2 fun c hc => List.mem_takeWhile_imp (hown.subset hc)

end LaidLine

/-- Taking a margin off leaves a part of a line. -/
lemma unindent_sublist (taken l : Text) : (unindent taken l).Sublist l := by
  unfold unindent
  split
  · exact List.nil_sublist l
  · cases hafter : after? taken l with
    | none => exact List.Sublist.refl l
    | some rest =>
      rw [eq_append_of_after? hafter]
      exact List.sublist_append_right taken rest

/-- Lines that are read are parts of lines. -/
lemma Divides.not_mem_of_mem_read {all opening inline margined closing : List Text}
    (h : Divides all opening inline margined closing) (hall : ∀ l ∈ all, '\n' ∉ l)
    (stripTrailing : Bool) :
    ∀ l ∈ (inline ++ margined.map (unindent (margin margined closing))).map
      (readLine stripTrailing), '\n' ∉ l := by
  intro read hread
  obtain ⟨l, hl, rfl⟩ := List.mem_map.1 hread
  have hl' : '\n' ∉ l := by
    rw [h.all_eq] at hall
    rcases List.mem_append.1 hl with hl | hl
    · exact hall l (by simp [hl])
    · obtain ⟨m, hm, rfl⟩ := List.mem_map.1 hl
      exact fun hmem => hall m (by simp [hm]) ((unindent_sublist _ m).subset hmem)
  exact fun hmem => hl' ((thinned_readLine stripTrailing l).sublist.subset hmem)

/-- Of related lists, one being the image of the other, every element is the image of a related
one. -/
lemma exists_image_of_map_eq {α β : Type} {R : α → β → Prop} {g : β → α} {ls : List α}
    {ms : List β} (h : List.Forall₂ R ls ms) (hmap : ms.map g = ls) :
    ∀ l ∈ ls, ∃ m, R l m ∧ g m = l := by
  induction h with
  | nil => simp
  | @cons l m ls ms hl h ih =>
    obtain ⟨hhead, htail⟩ := List.cons.inj hmap
    exact List.forall_mem_cons.2 ⟨⟨m, hl, hhead⟩, ih htail⟩

namespace Division

variable {block : BlockLayout} {ls all opening inline kept laid closing : List Text}

/-- The indentation that is taken off beyond the margin. -/
lemma exists_own (hblock : block.Sound)
    (h : Division block ls all opening inline kept laid closing)
    (hkept : kept.filter (!isBlankText ·) ≠ []) :
    ∃ own, marginOf (closing.head?.map (·.drop block.margin.length))
        (kept.filter (!isBlankText ·)) = some own ∧
      Divides.margin laid closing = block.margin ++ own ∧
      ∀ l ∈ kept, isBlankText l = false → own <+: indentOf l := by
  obtain ⟨own, hown, hmargin⟩ := LaidLine.margin_eq hblock.margin h.laid h.closingMargin hkept
  refine ⟨own, hown, hmargin, fun l hl hsolid => (prefix_of_marginOf hown).2 l ?_⟩
  simpa [hsolid] using hl

/-- What is read is what was laid out, perhaps without some blanks.  A blank line becomes empty, and
of a solid one goes what the lines have in common beyond the margin, which is blank. -/
lemma thinned_strip (hblock : block.Sound) {content : Text}
    (h : Division block ls (lines (dropReturns content)) opening inline kept laid closing)
    (stripTrailing : Bool) : Thinned (unlines ls) (strip content stripTrailing).1 := by
  have hline : ∀ l m, l ∈ kept → LaidLine block.margin l m →
      Thinned l (unindent (Divides.margin laid closing) m) := by
    intro l m hmem hl
    cases hblank : isBlankText l with
    | true =>
      rw [hl.unindent_blank hblock.margin hblank]
      exact .of_isBlankText hblank
    | false =>
      obtain ⟨own, -, hmargin, hown⟩ := h.exists_own hblock
        (List.ne_nil_of_mem (List.mem_filter.2 ⟨hmem, by simp [hblank]⟩))
      rw [hmargin]
      obtain ⟨hsplit, hblankOwn⟩ := hl.unindent_solid hblock.margin hblank (hown l hmem hblank)
      have hthinned := (Thinned.of_isBlankText hblankOwn).append
        (.refl (unindent (block.margin ++ own) m))
      rwa [← hsplit, List.nil_append] at hthinned
  rw [h.divides.strip_eq]
  refine h.thinned.trans (.unlines ?_)
  rw [List.map_append]
  refine List.rel_append ?_ ?_
  · rw [List.forall₂_map_right_iff, List.forall₂_same]
    exact fun l _ => thinned_readLine stripTrailing l
  · rw [List.map_map, List.forall₂_map_right_iff]
    have hpairs : List.Forall₂ (fun l m => l ∈ kept ∧ LaidLine block.margin l m) kept laid :=
      (List.forall₂_and_left kept laid).2 ⟨fun _ hl => hl, h.laid⟩
    exact hpairs.imp fun l m hl => (hline l m hl.1 hl.2).trans (thinned_readLine _ _)

/-- Whole lines behind the margin are those that have a say in it. -/
lemma countedLines_eq (hwhole : inline ++ kept = ls)
    (hinline : inline.length = if block.opensOnNewLine then 0 else 1) :
    countedLines block ls = kept.filter (!isBlankText ·) := by
  unfold countedLines
  cases hopens : block.opensOnNewLine with
  | true =>
    rw [hopens] at hinline
    obtain rfl := List.length_eq_zero_iff.1 hinline
    rw [if_pos rfl, ← hwhole, List.nil_append]
  | false =>
    rw [hopens] at hinline
    obtain ⟨l, rfl⟩ := List.length_eq_one_iff.1 hinline
    rw [if_neg Bool.false_ne_true, ← hwhole]
    rfl

/-- Lines are read as they were, if none of them is blank and nothing but the margin goes.  This is
the converse of `keeps_of_map_eq`. -/
lemma map_unindent_eq (hblock : block.Sound)
    (h : Division block ls all opening inline kept laid closing)
    (hclosing : closing = block.closingLines) (hsolid : ∀ l ∈ kept, l ≠ [] → isBlankText l = false)
    (hmargin : kept.filter (!isBlankText ·) = [] ∨
      marginOf (block.closingLines.head?.map (·.drop block.margin.length))
        (kept.filter (!isBlankText ·)) = some []) :
    laid.map (unindent (Divides.margin laid closing)) = kept := by
  have hpairs : List.Forall₂ (fun l m => l ∈ kept ∧ LaidLine block.margin l m) kept laid :=
    (List.forall₂_and_left kept laid).2 ⟨fun _ hl => hl, h.laid⟩
  rw [← List.forall₂_eq_eq_eq, List.forall₂_map_left_iff]
  refine hpairs.flip.imp fun m l hl => ?_
  cases hblank : isBlankText l with
  | true =>
    have hnil : l = [] := by
      by_contra hne
      rw [hsolid l hl.1 hne] at hblank
      cases hblank
    rw [hl.2.unindent_blank hblock.margin hblank, hnil]
  | false =>
    have hkept : kept.filter (!isBlankText ·) ≠ [] :=
      List.ne_nil_of_mem (List.mem_filter.2 ⟨hl.1, by simp [hblank]⟩)
    obtain ⟨own, hown, htaken, hbegins⟩ := h.exists_own hblock hkept
    rw [hclosing] at hown
    obtain rfl : own = [] := by
      have hsame := hown.symm.trans (hmargin.resolve_left hkept)
      simpa using hsame
    rw [htaken]
    exact (hl.2.unindent_solid hblock.margin hblank (hbegins l hl.1 hblank)).1.symm

/-- Lines that are read as they were are not blank, and nothing but the margin goes.  A blank line
is emptied when it is read.  Of a solid one, what the lines have in common beyond the margin would
be taken as well and the line would be shorter, so they have nothing more in common. -/
lemma keeps_of_map_eq (hblock : block.Sound)
    (h : Division block ls all opening inline kept laid closing)
    (hclosing : closing = block.closingLines) (stripTrailing : Bool)
    (hsame : (laid.map (unindent (Divides.margin laid closing))).map (readLine stripTrailing) =
      kept) :
    (∀ l ∈ kept, l ≠ [] → isBlankText l = false) ∧
      (kept.filter (!isBlankText ·) = [] ∨
        marginOf (block.closingLines.head?.map (·.drop block.margin.length))
          (kept.filter (!isBlankText ·)) = some []) := by
  rw [List.map_map] at hsame
  have himage := exists_image_of_map_eq h.laid hsame
  simp only [Function.comp_apply] at himage
  refine ⟨fun l hl hne => ?_, ?_⟩
  · obtain ⟨m, hm, heq⟩ := himage l hl
    by_contra hblank
    rw [Bool.not_eq_false] at hblank
    rw [hm.unindent_blank hblock.margin hblank] at heq
    cases stripTrailing <;> exact hne heq.symm
  · by_cases hkept : kept.filter (!isBlankText ·) = []
    · exact .inl hkept
    · obtain ⟨own, hown, htaken, hbegins⟩ := h.exists_own hblock hkept
      obtain ⟨l, rest, hl⟩ := List.exists_cons_of_ne_nil hkept
      have hmem : l ∈ kept ∧ isBlankText l = false := by
        have hl' : l ∈ kept.filter (!isBlankText ·) := hl ▸ List.mem_cons_self ..
        simpa using hl'
      obtain ⟨m, hm, heq⟩ := himage l hmem.1
      obtain ⟨hsplit, -⟩ := hm.unindent_solid hblock.margin hmem.2 (hbegins l hmem.1 hmem.2)
      rw [htaken] at heq
      have hle : l.length ≤ (unindent (block.margin ++ own) m).length := by
        rw [← heq]
        exact (thinned_readLine stripTrailing _).sublist.length_le
      have hlengths := congrArg List.length hsplit
      rw [List.length_append] at hlengths
      obtain rfl : own = [] := List.length_eq_zero_iff.1 (by omega)
      rw [hclosing] at hown
      exact .inr hown

/-- Lines that are read as they were keep their blank lines and their margin.  The same text is the
same list of lines, for no line has a line feed in it; so they are compared one by one, and none of
them has gone with the closing quotes. -/
lemma keeps_of_strip_eq (hblock : block.Sound) {content : Text}
    (h : Division block ls (lines (dropReturns content)) opening inline kept laid closing)
    (stripTrailing : Bool) (hlines : ∀ l ∈ ls, '\n' ∉ l) (hne : unlines ls ≠ [])
    (heq : (strip content stripTrailing).1 = unlines ls) :
    KeepsBlankLines block ls ∧ KeepsMargin block ls := by
  rw [h.divides.strip_eq] at heq
  have hlists : (inline ++ laid.map (unindent (Divides.margin laid closing))).map
      (readLine stripTrailing) = ls := by
    have hparts := h.divides.not_mem_of_mem_read (fun l hl => not_mem_of_mem_lines hl) stripTrailing
    generalize (inline ++ laid.map (unindent (Divides.margin laid closing))).map
      (readLine stripTrailing) = read at heq hparts
    have hread : read ≠ [] := by
      rintro rfl
      exact hne heq.symm
    have hls : ls ≠ [] := by
      rintro rfl
      exact hne rfl
    rw [← lines_unlines hread hparts, heq, lines_unlines hls hlines]
  have hlength := congrArg List.length hlists
  simp only [List.length_map, List.length_append, ← h.laid.length_eq] at hlength
  obtain ⟨hwhole, hinline, hclosing, hfirst⟩ := h.whole.resolve_right fun hpart => by
    have hlt := hpart.1
    rw [List.length_append] at hlt
    omega
  rw [List.map_append] at hlists
  have hsame := (List.append_inj (hlists.trans hwhole.symm) (by simp)).2
  obtain ⟨hsolid, hmargin⟩ := h.keeps_of_map_eq hblock hclosing stripTrailing hsame
  refine ⟨?_, by rwa [KeepsMargin, countedLines_eq hwhole hinline]⟩
  by_cases hfree : ∀ l ∈ inline, isBlankText l = false
  · right
    intro l hl hne
    rw [← hwhole] at hl
    rcases List.mem_append.1 hl with hl | hl
    · exact hfree l hl
    · exact hsolid l hl hne
  · simp only [not_forall, Bool.not_eq_false] at hfree
    obtain ⟨l, hl, hblank⟩ := hfree
    obtain ⟨hone, hinside⟩ := hfirst l hl hblank
    refine .inl ⟨hone, ?_, hinside⟩
    cases hopens : block.opensOnNewLine with
    | true =>
      rw [hopens] at hinline
      obtain rfl := List.length_eq_zero_iff.1 hinline
      cases hl
    | false => rfl

/-- Lines whose blank lines and margin are kept are read as they were. -/
lemma strip_eq_of_keeps (hblock : block.Sound) {content : Text}
    (h : Division block ls (lines (dropReturns content)) opening inline kept laid closing)
    {stripTrailing : Bool} (hread : ∀ l ∈ ls, readLine stripTrailing l = l)
    (hblank : KeepsBlankLines block ls) (hmargin : KeepsMargin block ls) :
    (strip content stripTrailing).1 = unlines ls := by
  rw [h.divides.strip_eq]
  obtain ⟨hwhole, hinline, hclosing, -⟩ := h.whole.resolve_right fun hpart => hpart.2 hblank
  rw [KeepsMargin, countedLines_eq hwhole hinline] at hmargin
  have hkept : ∀ l ∈ kept, l ≠ [] → isBlankText l = false := by
    intro l hl
    rcases hblank with ⟨hone, hopens, -⟩ | hsolid
    · rw [hopens] at hinline
      rw [← hwhole, List.length_append, hinline] at hone
      obtain rfl := List.length_eq_zero_iff.1 (by simpa using hone : kept.length = 0)
      cases hl
    · exact hsolid l (hwhole ▸ List.mem_append_right _ hl)
  rw [h.map_unindent_eq hblock hclosing hkept hmargin, hwhole, List.map_congr_left hread,
    List.map_id']

/-- **Lines are read as they were laid out** if none that is blank is lost, and nothing but the
margin is taken off; and only then. -/
theorem strip_eq_iff (hblock : block.Sound) {content : Text}
    (h : Division block ls (lines (dropReturns content)) opening inline kept laid closing)
    {stripTrailing : Bool} (hread : ∀ l ∈ ls, readLine stripTrailing l = l)
    (hlines : ∀ l ∈ ls, '\n' ∉ l) (hne : unlines ls ≠ []) :
    (strip content stripTrailing).1 = unlines ls ↔
      KeepsBlankLines block ls ∧ KeepsMargin block ls :=
  ⟨h.keeps_of_strip_eq hblock stripTrailing hlines hne,
    fun hkeeps => h.strip_eq_of_keeps hblock hread hkeeps.1 hkeeps.2⟩

end Division

end SqlInlay.Host
