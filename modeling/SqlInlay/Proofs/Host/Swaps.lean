import SqlInlay.Proofs.Host.Encodings

/-!
# Sources with other literals

Formatting a source puts other literals in the place of some of its literals.  To say that the two
sources are read alike, one has to walk over both at once, and this needs more than a list of edits:
it has to be known that an expression stands where each edit is, that another expression takes its
place, and what stands around it.

`Swapped` says all of this of two sources.  Each of them is a text that both have, an expression,
white space and comments, and a comma or a closing parenthesis, over and over again.  The expression
of the one may differ from that of the other, but starts with the same character, so a scan that
comes to it turns the same way.

* `exists_swapped` says that what formatting makes of a source is of this kind.  It goes through the
  literals in the order in which they are found (`Located`), and `Encodes.expression` is the step:
  the encoding of a query after the hints of a literal is an expression as the literal is one.
* `Swapped.splice` takes the rewritings for edits.  They can be carried out, and come to the second
  source.
* `Swapped.trivia_swap` is about the white space and the comments behind an expression: what ends an
  argument ends them, whatever follows.

**Equal sources have equal literals.**  Strings are read from the left, and go on until nothing
joins them to a further one.  So an expression cannot be a part of another one at the same place
(`FragmentsAt.end_unique`), and what is swapped cannot come out as what was there, unless each
literal does (`Swapped.eq_of_eq`).  A run that looks for changes relies on it.
-/

namespace SqlInlay.Host

open SqlInlay.Text

/-! ## Fragments at a place

Where the strings of an expression end is settled by what follows, so two readings from one place
that both end where nothing goes on have come to the same end.
-/

/-- Nothing joins the strings in front of the place to a further one. -/
def Cursor.EndsStrings (language : Language) (c : Cursor) : Prop :=
  ∀ continued, joinerAt language continued (c.skipTrivia language) = none

lemma Cursor.EndsArgument.endsStrings {language : Language} {c : Cursor}
    (h : (c.skipTrivia language).EndsArgument) : c.EndsStrings language := by
  obtain ⟨x, u, hrest, hx⟩ := h
  intro continued
  have hquote : x ∉ "rRbBuUfF\"'".toList := by rcases hx with rfl | rfl <;> decide
  have hplus : x ≠ '+' := by rcases hx with rfl | rfl <;> decide
  simp [joinerAt, hrest, hplus, quoted?_eq_none hquote]

/-- **Strings read from one place** end where nothing joins them to a further one.  The induction is
over the fragments of the first reading, and each string that joins is read by the second, too. -/
lemma FragmentsAt.end_unique {buffer : Nat} {language : Language} {c d d' : Cursor}
    {fragments fragments' : List Fragment} (h : FragmentsAt buffer language c fragments d)
    (h' : FragmentsAt buffer language c fragments' d') (hd : d.EndsStrings language)
    (hd' : d'.EndsStrings language) : d = d' := by
  induction h generalizing fragments' with
  | @last c q hq hplain =>
    cases h' with
    | @last _ q' hq' =>
      obtain rfl : q = q' := Option.some.inj (Option.some.inj (hq.symm.trans hq'))
      rfl
    | @cons _ _ _ q' _ _ _ hq' _ hjoiner' =>
      obtain rfl : q = q' := Option.some.inj (Option.some.inj (hq.symm.trans hq'))
      rw [hd] at hjoiner'
      cases hjoiner'
  | @cons c following d q continued joiner fragments hq hplain hjoiner h ih =>
    cases h' with
    | @last _ q' hq' =>
      obtain rfl : q = q' := Option.some.inj (Option.some.inj (hq.symm.trans hq'))
      rw [hd'] at hjoiner
      cases hjoiner
    | @cons _ following' _ q' _ _ _ hq' _ hjoiner' h' =>
      obtain rfl : q = q' := Option.some.inj (Option.some.inj (hq.symm.trans hq'))
      obtain ⟨joiner'', hjoiner''⟩ := joinerAt_continued hjoiner _
      obtain rfl : following = following' :=
        (Prod.mk.inj (Option.some.inj (hjoiner''.symm.trans hjoiner'))).2
      exact ih h' hd

/-- The strings of an expression are fragments from its start to its end. -/
lemma Expression.fragmentsAt (buffer : Nat) {language : Language} {c : Cursor} {e t : Text}
    {qs : List Quoted} (h : Expression language t e qs) (hrest : c.rest = e ++ t)
    (hfree : c.IsFree) :
    ∃ fragments, FragmentsAt buffer language c fragments (c.advance e.length) := by
  obtain ⟨fragments, hfragments, -, -, hlast⟩ := fragmentsFrom_expression buffer h hrest hfree
  obtain ⟨d, hd, -, -⟩ := fragmentsAt_of_fragmentsFrom hfragments
  obtain ⟨hnext, hoffset⟩ := Cursor.advance_append hrest
  refine ⟨fragments, ?_⟩
  have hstop : d.offset = (c.advance e.length).offset := by
    have hends := hd.ends.2
    rw [hlast] at hends
    rw [hoffset]
    exact (Option.some.inj hends).symm
  have hreach := hd.reaches.of_offset_le (c.reaches_advance e.length) hstop.le
  obtain ⟨s, hs, hbytes⟩ := hreach.exists_between
  obtain rfl : s = [] := bytes_eq_zero.1 (by omega)
  rw [Cursor.Meets.eq_of_rest (c.reaches_advance e.length) hd.reaches hs.symm]
  exact hd

/-! ## Swapped literals

The offset counts the bytes of the source in front, so that the spans of the rewritings are those of
the source and not of what becomes of it.
-/

/-- The text behind an offset, and what becomes of it where expressions are swapped: each rewriting
covers an expression, behind which white space, comments and the end of an argument follow, and puts
another expression in its place that starts with the same character. -/
inductive Swapped (language : Language) : Nat → List Edit → Text → Text → Prop
  | refl (offset : Nat) (t : Text) : Swapped language offset [] t t
  | swap {offset : Nat} {gap e blanks t t' : Text} {x : Char} {qs qs' : List Quoted} {r : Edit}
      {rewritings : List Edit}
      (hstart : r.span.start = offset + bytes gap) (hstop : r.span.stop = r.span.start + bytes e)
      (hgap : Strides language (gap ++ (e ++ (blanks ++ x :: t))) (e ++ (blanks ++ x :: t)))
      (hapart : ∃ y ∈ gap.getLast?, leadsOn y = false)
      (he : Expression language (blanks ++ x :: t) e qs)
      (he' : Expression language (blanks ++ x :: t') r.replacement qs')
      (hhead : e.head? = r.replacement.head?)
      (hblanks : (trivia language (blanks ++ x :: t)).1 = blanks.length)
      (hx : x = ',' ∨ x = ')')
      (h : Swapped language (r.span.stop + bytes (blanks ++ [x])) rewritings t t') :
      Swapped language offset (r :: rewritings) (gap ++ (e ++ (blanks ++ x :: t)))
        (gap ++ (r.replacement ++ (blanks ++ x :: t')))

namespace Swapped

variable {language : Language} {offset : Nat} {rewritings : List Edit} {t t' : Text}

/-- What is swapped is spliced. -/
lemma splice (h : Swapped language offset rewritings t t') : Splice offset t rewritings t' := by
  induction h with
  | refl => exact .nil
  | swap hstart hstop _ _ _ _ _ _ _ _ ih =>
    have hbehind := ih.skip
    rw [List.append_assoc, List.append_assoc] at hbehind
    exact .cons hstart hstop hbehind

/-- What is passed in front makes no difference. -/
lemma of_strides {s : Text} (hs : Strides language (s ++ t) t)
    (h : Swapped language (offset + bytes s) rewritings t t') :
    Swapped language offset rewritings (s ++ t) (s ++ t') := by
  generalize hfrom : offset + bytes s = k at h
  cases h with
  | refl => exact .refl _ _
  | @swap _ gap e blanks t t' x qs qs' r rewritings hstart hstop hgap hapart he he' hhead hblanks
      hx h =>
    rw [← List.append_assoc, ← List.append_assoc s]
    refine .swap ?_ hstop (by rw [List.append_assoc]; exact hs.trans hgap) ?_ he he' hhead hblanks
      hx h
    · rw [hstart, ← hfrom, bytes_append, Nat.add_assoc]
    · obtain ⟨y, hy, hleads⟩ := hapart
      refine ⟨y, ?_, hleads⟩
      rw [List.getLast?_append, hy]
      rfl

/-- In front of what ends an argument the white space and the comments of both texts are the same. -/
lemma trivia_swap {blanks : Text} {x : Char} (hx : x = ',' ∨ x = ')')
    (hblanks : (trivia language (blanks ++ x :: t)).1 = blanks.length) :
    (trivia language (blanks ++ x :: t')).1 = blanks.length := by
  have hstop : (trivia language (x :: t')).1 = 0 := by
    rcases hx with rfl | rfl <;> rw [trivia_eq_zero (by decide) (by decide) (by decide)]
  have hsame : trivia language (blanks ++ x :: t') = trivia language (blanks ++ x :: t) :=
    trivia_congr hblanks rfl hstop
  rw [hsame, hblanks]

end Swapped

/-! ## What formatting swaps

Hints are taken from a literal of the source, and an encoding after them is written in the same way:
with the same quotes and letters, or as the text block that a string is promoted to.  Either begins
as the literal did.
-/

/-- An encoding of some text after the hints of a literal.  The text need not be the layout of the
query that the literal holds. -/
def Encodes (language : Language) (source : Text) (l : Literal) (e : Text) : Prop :=
  ∃ query hints style t, decode source language l = .ok (query, hints) ∧
    encode style hints t = .ok e

/-- There are no comments between the fragments of a literal that is encoded anew. -/
lemma Encodes.not_hasHostComment {language : Language} {source : Text} {l : Literal} {e : Text}
    (h : Encodes language source l e) :
    ∀ s ∈ separators source l.fragments, hasHostComment language s = false := by
  obtain ⟨query, hints, style, t, hdecode, hencode⟩ := h
  obtain ⟨f, fs, block, hfragments, -, hhints⟩ := exists_of_decode hdecode
  cases fs with
  | nil => simp [hfragments, separators]
  | cons g gs =>
    have hcount : hints.fragmentCount > 1 := by simp [hhints, hintsOf, hfragments]
    rw [encode, if_pos hcount, encodeSplit] at hencode
    split at hencode
    · cases hencode
    · split at hencode
      · cases hencode
      · rename_i hcomments
        rw [hhints] at hcomments
        simpa [hintsOf] using hcomments

/-- No quote follows where an argument ends, white space and comments aside. -/
lemma not_mem_head?_of_trivia {language : Language} {blanks t : Text} {x : Char}
    (hx : x = ',' ∨ x = ')') (hblanks : (trivia language (blanks ++ x :: t)).1 = blanks.length) :
    '"' ∉ (blanks ++ x :: t).head? ∧ '\'' ∉ (blanks ++ x :: t).head? := by
  cases blanks with
  | nil => rcases hx with rfl | rfl <;> simp
  | cons y blanks =>
    have hquote : ∀ q : Char, q = '"' ∨ q = '\'' → y ≠ q := by
      rintro q hq rfl
      rw [List.cons_append, trivia_eq_zero] at hblanks
      · cases hblanks
      · rcases hq with rfl | rfl <;> decide
      · rcases hq with rfl | rfl <;> decide
      · rcases hq with rfl | rfl <;> decide
    exact ⟨fun h => hquote '"' (.inl rfl) (Option.some.inj h),
      fun h => hquote '\'' (.inr rfl) (Option.some.inj h)⟩

/-- The strings of a literal that is encoded anew are an expression, and start with the same
character. -/
lemma Encodes.expression {buffer : Nat} {language : Language} {marks : Annotations} {source : Text}
    {l : Literal} (hl : .literal l ∈ locate buffer language marks source) {e' : Text}
    (h : Encodes language source l e') {first last : Cursor} (htext : first.text = source)
    (hstands : l.StandsAt buffer language first last) (hfree : first.IsFree) {rest : Text}
    (hrest : '"' ∉ rest.head? ∧ '\'' ∉ rest.head?) :
    ∃ e qs qs', first.rest = e ++ last.rest ∧ Expression language last.rest e qs ∧
      Expression language rest e' qs' ∧ e.head? = e'.head? := by
  obtain ⟨e, qs, hfirst, he, hhead⟩ :=
    hstands.fragments.expression hfree (htext ▸ h.not_hasHostComment)
  obtain ⟨query, hints, style, t, hdecode, hencode⟩ := h
  obtain ⟨q', qs', he', hmarker, hdelimiter⟩ :=
    exists_expression_of_encode hl hdecode hencode hrest
  obtain ⟨f, fs, block, hfragments, -, hhints⟩ := exists_of_decode hdecode
  have hf : hints.marker = f.marker ∧ hints.delimiter = f.delimiter := by
    rw [hhints]
    exact ⟨rfl, rfl⟩
  refine ⟨e, qs, q' :: qs', hfirst, he, he', ?_⟩
  rw [hfragments] at hhead
  obtain ⟨q, hq, hparts⟩ := Option.map_eq_some_iff.1 hhead
  obtain ⟨hmarker', hdelimiter'⟩ := Prod.mk.inj hparts
  rw [he.head?, he'.head?, hq]
  simp only [List.head?_cons, Option.bind_some, List.head?_append, hmarker, hdelimiter, hf, hmarker',
    hdelimiter']

/-- **What formatting makes of a source** has other expressions in place of some literals.  It is
enough that each rewriting encodes some text after the hints of its literal. -/
theorem exists_swapped {buffer : Nat} {language : Language} {marks : Annotations} {source : Text}
    {rewriting : Literal → Option Text} {c : Cursor} {ls : List Literal} (htext : c.text = source)
    (h : Located buffer language c ls)
    (hls : ∀ l ∈ ls, .literal l ∈ locate buffer language marks source ∧
      ∀ e ∈ rewriting l, Encodes language source l e) :
    ∃ out, Swapped language c.offset (ls.filterMap fun l => (rewriting l).map (⟨l.span, ·⟩))
      c.rest out := by
  induction h with
  | nil c => exact ⟨c.rest, .refl _ _⟩
  | @cons c first last next l ls hfirst hlt hapart hl hend hnext h ih =>
    rw [List.forall_mem_cons] at hls
    obtain ⟨blanks, x, between, hx, hrest, hblanks, hstrides, hbehind⟩ := hend.exists_behind hnext
    have hmeets := hfirst.trans (hl.fragments.meets.trans hbehind)
    obtain ⟨out, hswapped⟩ := ih (hmeets.1.text_eq.trans htext) hls.2
    cases hrewriting : rewriting l with
    | none =>
      obtain ⟨s, hs, hoffset⟩ := hmeets.1.exists_between
      have hstrides := hmeets.2
      rw [hs] at hstrides ⊢
      simp only [List.filterMap_cons, hrewriting, Option.map_none]
      exact ⟨s ++ out, .of_strides hstrides (hoffset ▸ hswapped)⟩
    | some e' =>
      obtain ⟨gap, hgap, hstart, hstrides', hapart'⟩ := hapart.exists_in_front hfirst hlt
      have htext' : first.text = source := hfirst.1.text_eq.trans htext
      rw [hrest] at hblanks
      have hquote : '"' ∉ (blanks ++ x :: (between ++ out)).head? ∧
          '\'' ∉ (blanks ++ x :: (between ++ out)).head? :=
        not_mem_head?_of_trivia hx (Swapped.trivia_swap hx hblanks)
      obtain ⟨e, qs, qs', he, hexpression, hexpression', hhead⟩ :=
        (hls.1.2 e' hrewriting).expression hls.1.1 htext' hl hapart.isFree hquote
      have hstop : last.offset = first.offset + bytes e := hl.fragments.reaches.offset_eq he
      have hoffset := hbehind.1.offset_eq (s := blanks ++ x :: between) (by simpa using hrest)
      rw [hrest] at he hexpression
      rw [he] at hgap hstrides'
      rw [hgap]
      refine ⟨gap ++ (e' ++ (blanks ++ x :: (between ++ out))), ?_⟩
      simp only [List.filterMap_cons, hrewriting, Option.map_some]
      refine .swap (r := ⟨l.span, e'⟩) ?_ ?_ hstrides' hapart' hexpression hexpression' hhead hblanks
        hx (.of_strides hstrides ?_)
      · rw [hl.span]
        exact hstart
      · rw [hl.span]
        exact hstop
      · have hsplit : bytes (blanks ++ x :: between) = bytes (blanks ++ [x]) + bytes between := by
          rw [← bytes_append, List.append_assoc, List.singleton_append]
        have hnext : l.span.stop + bytes (blanks ++ [x]) + bytes between = next.offset := by
          rw [hl.span, hoffset, hsplit, Nat.add_assoc]
        exact hnext ▸ hswapped

end SqlInlay.Host
