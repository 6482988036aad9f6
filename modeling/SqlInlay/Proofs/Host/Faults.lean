import SqlInlay.Proofs.Candidates

/-!
# Where escapes are said to be at fault

An escape that cannot be read is reported at an offset of the source.  A reader who follows the
report expects the backslash of the escape there.  On a line this is what they find; in a block it
depends on what stands in front.

**Reading.**  `unescape` fails at the first escape that cannot be read, and counts the bytes in
front of it (`unescape_eq_error`).  `ReadsUpTo` says that reading has come so far: what is in front
of the escape are whole characters and whole escapes, so the backslash is one that starts an escape
and not the second half of another.  Between single quotes, what is counted is the source.

**Blocks.**  The content of a block is read without its margin and without some blank lines and
blanks at the ends of lines, that is, without some of its blanks (`thinned_strip`).  A backslash
that is left stands for one of the content (`Thinned.exists_split`), but the bytes in front of it
are fewer.  So the offset never comes too late and never leaves the content, and it is that of the
escape if and only if nothing is taken off in front of it.

**Literals.**  Fragments are decoded one after the other, and a literal is at fault because one of
them is (`exists_of_decodeFragments_eq_error`).  `Faulty` says of a fragment how the escape stands
in its content and in what is read of it.  `decode_unsupportedEscape` puts this together, and
`not_decode_unsupportedEscape` is a text block in which the report points at the line feed behind
the opening quotes.
-/

namespace SqlInlay.Text

namespace Thinned

variable {t u : Text}

lemma bytes_le (h : Thinned t u) : bytes u ≤ bytes t := by
  induction h with
  | nil => exact Nat.le_refl _
  | keep h ih =>
    simp only [bytes_cons]
    omega
  | drop hc h ih =>
    simp only [bytes_cons]
    omega

/-- A text that loses no bytes stays the same.  This is what turns an equation of offsets into one
of texts. -/
lemma eq_of_bytes (h : Thinned t u) (hbytes : bytes t = bytes u) : u = t := by
  induction h with
  | nil => rfl
  | keep h ih =>
    simp only [bytes_cons, Nat.add_left_cancel_iff] at hbytes
    rw [ih hbytes]
  | @drop c t u hc h ih =>
    have hle := h.bytes_le
    have hpos := c.utf8Size_pos
    simp only [bytes_cons] at hbytes
    omega

/-- What stands around a character that stays is thinned on its own.  The character need not be the
only one of its kind in the text; some place in it is the one that stayed. -/
lemma exists_split {front back : Text} {c : Char} (h : Thinned t (front ++ c :: back)) :
    ∃ before behind, t = before ++ c :: behind ∧ Thinned before front ∧ Thinned behind back := by
  generalize hu : front ++ c :: back = u at h
  induction h generalizing front with
  | nil => simp at hu
  | @keep d t u h ih =>
    cases front with
    | nil =>
      obtain ⟨rfl, rfl⟩ := List.cons.inj hu
      exact ⟨[], t, rfl, .nil, h⟩
    | cons e front =>
      obtain ⟨rfl, hu'⟩ := List.cons.inj hu
      obtain ⟨before, behind, rfl, hbefore, hbehind⟩ := ih hu'
      exact ⟨e :: before, behind, rfl, .keep hbefore, hbehind⟩
  | @drop d t u hd h ih =>
    obtain ⟨before, behind, rfl, hbefore, hbehind⟩ := ih hu
    exact ⟨d :: before, behind, rfl, .drop hd hbefore, hbehind⟩

end Thinned

end SqlInlay.Text

namespace SqlInlay.Host

open SqlInlay.Text

/-! ## Reading

Reading takes characters and escapes one by one from the left and adds their bytes to the offset
that it was given.  The induction follows it.
-/

/-- Reading whole characters and whole escapes of a text comes to what is left of it. -/
inductive ReadsUpTo (language : Language) : Text → Text → Prop
  | here (t : Text) : ReadsUpTo language t t
  | plain {c : Char} {t u : Text} (hc : c ≠ '\\') (h : ReadsUpTo language t u) :
      ReadsUpTo language (c :: t) u
  | escape {t u image : Text} {n : Nat} (hread : readEscape language t = .ok (image, n))
      (h : ReadsUpTo language (t.drop n) u) : ReadsUpTo language ('\\' :: t) u

/-- What is done to a result does not change a failure. -/
lemma error_of_map_eq_error {ε α β : Type} {f : α → β} {x : Except ε α} {e : ε}
    (h : x.map f = .error e) : x = .error e := by
  cases x with
  | error e' =>
    cases h
    rfl
  | ok a => cases h

/-- **What cannot be read** has an escape that is at fault behind others that are not, and is
reported by the bytes in front of it. -/
lemma unescape_eq_error {language : Language} {offset : Nat} {t : Text} {failure : Failure}
    (h : unescape language offset t = .error failure) :
    ∃ front back fault, t = front ++ '\\' :: back ∧ ReadsUpTo language t ('\\' :: back) ∧
      readEscape language back = .error fault ∧
      failure = .unsupportedEscape (offset + bytes front) fault := by
  fun_induction unescape language offset t with
  | case1 => cases h
  | case2 offset t fault hfault =>
    exact ⟨[], t, fault, rfl, .here _, hfault, (Except.error.inj h).symm⟩
  | case3 offset t image n hread ih =>
    obtain ⟨front, back, fault, hsplit, hreads, hfault, rfl⟩ := ih (error_of_map_eq_error h)
    refine ⟨'\\' :: (t.take n ++ front), back, fault, ?_, .escape hread hreads, hfault, ?_⟩
    · rw [List.cons_append, List.append_assoc, ← hsplit, List.take_append_drop]
    · simp [Nat.add_assoc]
  | case4 offset c t hc ih =>
    obtain ⟨front, back, fault, rfl, hreads, hfault, rfl⟩ := ih (error_of_map_eq_error h)
    exact ⟨c :: front, back, fault, rfl, .plain hc hreads, hfault, by simp [Nat.add_assoc]⟩

/-! ## Blocks

Every step of `strip` takes blanks away and nothing else: carriage returns, blank lines at the ends,
margins, and blanks at the ends of lines.  Each is a lemma about `Thinned`, so their order does not
matter here.
-/

/-- Without its margin, a line lacks some of its blanks. -/
lemma thinned_unindent {margin : Text} (hmargin : isBlankText margin = true) (l : Text) :
    Thinned l (unindent margin l) := by
  unfold unindent
  split
  · rename_i hblank
    exact .of_isBlankText hblank
  · cases hafter : after? margin l with
    | none => exact .refl l
    | some rest =>
      rw [eq_append_of_after? hafter]
      exact (Thinned.of_isBlankText hmargin).append (.refl rest)

/-- **What is read of a block** is its content without some of its blanks.  Nothing is asked of the
content, which need not be one that a layout has made. -/
lemma thinned_strip (content : Text) (stripTrailing : Bool) :
    Thinned content (strip content stripTrailing).1 := by
  have hsound := (sound_strip content stripTrailing).margin
  unfold strip
  extract_lets text all opens body closes closing kept inline known margin bare trimmed
  have hmargin : isBlankText margin = true := hsound
  have hbody : Thinned (unlines all) (unlines body) := by
    unfold body
    split
    · rename_i hopens
      obtain ⟨l, ls, hl⟩ := List.exists_cons_of_ne_nil (lines_ne_nil text)
      have hall : all = l :: ls := hl
      have hblank : isBlankText l = true := by
        unfold opens at hopens
        rw [hall, Bool.and_eq_true] at hopens
        exact hopens.2
      rw [hall]
      exact .unlines_cons hblank ls
    · exact .refl _
  have hkept : Thinned (unlines body) (unlines kept) := by
    unfold kept
    split
    · rename_i hcloses
      unfold closes at hcloses
      rcases List.eq_nil_or_concat body with hnil | ⟨ls, l, hl⟩
      · simp [hnil] at hcloses
      · rw [hl, List.concat_eq_append] at hcloses ⊢
        rw [List.dropLast_concat]
        refine .unlines_concat ?_ ls
        rw [List.getLast?_concat, Bool.and_eq_true] at hcloses
        exact hcloses.1
    · exact .refl _
  have hbare : List.Forall₂ Thinned kept bare := by
    unfold bare
    nth_rewrite 1 [← List.take_append_drop inline kept]
    refine List.rel_append ?_ ?_
    · exact List.forall₂_same.2 fun l _ => .refl l
    · rw [List.forall₂_map_right_iff, List.forall₂_same]
      exact fun l _ => thinned_unindent hmargin l
  have htrimmed : List.Forall₂ Thinned bare trimmed := by
    unfold trimmed
    split
    · rw [List.forall₂_map_right_iff, List.forall₂_same]
      exact fun l _ => thinned_readLine true l
    · exact List.forall₂_same.2 fun l _ => .refl l
  have hlines : Thinned content (unlines all) := by
    have hreturns := thinned_dropReturns content
    rwa [← unlines_lines (dropReturns content)] at hreturns
  exact hlines.trans (hbody.trans (hkept.trans ((Thinned.unlines hbare).trans (.unlines htrimmed))))

/-! ## Literals -/

/-- What is read of a fragment: its content, without the margin if it is a block. -/
def bodyOf (source : Text) (language : Language) (f : Fragment) : Text :=
  if f.style = .triple then (strip (f.content.of source) (language == .java)).1
  else f.content.of source

/-- A fragment is at fault if its content is. -/
lemma decodeFragment_eq_error {source : Text} {language : Language} {f : Fragment} {offset : Nat}
    {fault : EscapeFault}
    (h : decodeFragment source language f = .error (.unsupportedEscape offset fault)) :
    unescape language f.content.start (bodyOf source language f) =
      .error (.unsupportedEscape offset fault) := by
  unfold decodeFragment at h
  unfold bodyOf
  simp only at h
  split at h
  · cases h
  · by_cases htriple : f.style = .triple
    · simp only [htriple, if_true] at h ⊢
      split at h
      · cases h
      · exact error_of_map_eq_error h
    · simp only [htriple, if_false] at h ⊢
      split at h
      · cases h
      · exact error_of_map_eq_error h

/-- Fragments are at fault together if one of them is. -/
lemma exists_of_decodeFragments_eq_error {source : Text} {language : Language} {read : Text}
    {block : Option BlockLayout} {fs : List Fragment} {failure : Failure}
    (h : decodeFragments source language read block fs = .error failure) :
    ∃ f ∈ fs, decodeFragment source language f = .error failure := by
  induction fs generalizing read block with
  | nil => cases h
  | cons f fs ih =>
    rw [decodeFragments] at h
    cases hf : decodeFragment source language f with
    | error failure' =>
      rw [hf] at h
      obtain rfl := Except.error.inj h
      exact ⟨f, List.mem_cons_self .., hf⟩
    | ok decoded =>
      rw [hf] at h
      obtain ⟨g, hg, hfailure⟩ := ih h
      exact ⟨g, List.mem_cons_of_mem _ hg, hfailure⟩

/-- The escape behind `front` in the content of a fragment is at fault: behind `read`, which is
what is left of `front` and can be read, stands what cannot be read as an escape. -/
structure Faulty (source : Text) (language : Language) (f : Fragment) (fault : EscapeFault)
    (front back read rest : Text) : Prop where
  content : f.content.of source = front ++ '\\' :: back
  body : bodyOf source language f = read ++ '\\' :: rest
  reads : ReadsUpTo language (bodyOf source language f) ('\\' :: rest)
  refused : readEscape language rest = .error fault
  thinned : Thinned front read ∧ Thinned back rest
  plain : f.style ≠ .triple → read = front ∧ rest = back

/-- What cannot be read of a fragment is an escape of its content. -/
lemma exists_faulty {source : Text} {language : Language} {f : Fragment} {offset : Nat}
    {fault : EscapeFault}
    (h : decodeFragment source language f = .error (.unsupportedEscape offset fault)) :
    ∃ front back read rest, Faulty source language f fault front back read rest ∧
      offset = f.content.start + bytes read := by
  obtain ⟨read, rest, fault', hbody, hreads, hrefused, hfailure⟩ :=
    unescape_eq_error (decodeFragment_eq_error h)
  obtain ⟨rfl, rfl⟩ : offset = f.content.start + bytes read ∧ fault = fault' := by
    simpa using hfailure
  by_cases htriple : f.style = .triple
  · have hthinned := thinned_strip (f.content.of source) (language == .java)
    have hstripped : bodyOf source language f =
        (strip (f.content.of source) (language == .java)).1 := if_pos htriple
    rw [← hstripped, hbody] at hthinned
    obtain ⟨front, back, hcontent, hfront, hback⟩ := hthinned.exists_split
    exact ⟨front, back, read, rest, ⟨hcontent, hbody, hreads, hrefused, ⟨hfront, hback⟩,
      fun h => absurd htriple h⟩, rfl⟩
  · have hcontent : bodyOf source language f = f.content.of source := if_neg htriple
    exact ⟨read, rest, read, rest, ⟨hcontent.symm.trans hbody, hbody, hreads, hrefused,
      ⟨.refl read, .refl rest⟩, fun _ => ⟨rfl, rfl⟩⟩, rfl⟩

/-- **Where an escape is said to be at fault.**  If decoding a literal fails at an escape, then the
content of one of its fragments holds a backslash that starts the first escape of the fragment that
cannot be read, and the offset that is reported lies in that content, at the backslash or in front
of it: at the backslash if and only if nothing was taken off in front of it, which is so in every
fragment that is no block. -/
theorem decode_unsupportedEscape {buffer : Nat} {language : Language} {marks : Annotations}
    {source : Text} {l : Literal} (hl : .literal l ∈ locate buffer language marks source)
    {offset : Nat} {fault : EscapeFault}
    (h : decode source language l = .error (.unsupportedEscape offset fault)) :
    ∃ f ∈ l.fragments, ∃ front back read rest,
      Faulty source language f fault front back read rest ∧
      (∃ s t, source = s ++ '\\' :: t ∧ bytes s = f.content.start + bytes front) ∧
      f.content.start ≤ offset ∧ offset ≤ f.content.start + bytes front ∧
      f.content.start + bytes front < f.content.stop ∧
      (offset = f.content.start + bytes front ↔ read = front) := by
  obtain ⟨f, hf, hfailure⟩ : ∃ f ∈ l.fragments,
      decodeFragment source language f = .error (.unsupportedEscape offset fault) := by
    unfold decode at h
    split at h
    · cases h
    · exact exists_of_decodeFragments_eq_error (error_of_map_eq_error h)
  obtain ⟨front, back, read, rest, hfaulty, rfl⟩ := exists_faulty hfailure
  obtain ⟨first, last, hfirst, ⟨hstands, -⟩⟩ := exists_standsAt hl
  have htext : first.text = source := hfirst.text_eq.trans (Cursor.text_start source)
  have hwellFormed := (hstands.wellFormed.1 f hf).1
  rw [htext] at hwellFormed
  obtain ⟨s, content, t, hsource, hstart, hstop⟩ := hwellFormed.cuts.2
  have hcontent : f.content.of source = content := by
    rw [hsource]
    exact slice_bytes hstart (hstop.trans (congrArg (· + _) hstart))
  obtain rfl := hcontent.symm.trans hfaulty.content
  have hle := hfaulty.thinned.1.bytes_le
  have hpos := '\\'.utf8Size_pos
  simp only [bytes_append, bytes_cons] at hstop
  refine ⟨f, hf, front, back, read, rest, hfaulty,
    ⟨s ++ front, back ++ t, by simp [hsource], by simp [hstart]⟩, by omega, by omega, by omega,
    fun hsame => hfaulty.thinned.1.eq_of_bytes (by omega), fun hsame => by rw [hsame]⟩

/-- In a Kotlin string, the escape at fault is found behind another one. -/
theorem decode_unsupportedEscape_plain :
    ∃ (l : Literal) (fault : EscapeFault),
      .literal l ∈ locate 0 .kotlin {} "@Query(\"\\t\\q\")" ∧
      decode "@Query(\"\\t\\q\")" .kotlin l = .error (.unsupportedEscape 10 fault) ∧
      (∃ f ∈ l.fragments, f.content.start ≤ 10 ∧ 10 < f.content.stop) ∧
      ∃ s t, "@Query(\"\\t\\q\")".toList = s ++ '\\' :: t ∧ bytes s = 10 := by
  let f : Fragment := ⟨⟨0, 7, 13⟩, ⟨0, 8, 12⟩, .double, [], "\"", none⟩
  let l : Literal := ⟨"Query", ⟨0, 7, 13⟩, [f], .jpql⟩
  have hl : .literal l ∈ locate 0 .kotlin {} "@Query(\"\\t\\q\")" := by decide +kernel
  have h : decode "@Query(\"\\t\\q\")" .kotlin l =
      .error (.unsupportedEscape 10 (.unknown 'q')) := by decide +kernel
  obtain ⟨g, hg, front, back, read, rest, hfaulty, ⟨s, t, hsource, hs⟩, hstart, -, hstop, hiff⟩ :=
    decode_unsupportedEscape hl h
  obtain rfl := List.mem_singleton.1 hg
  have hplace := hiff.2 (hfaulty.plain (by decide)).1
  exact ⟨l, .unknown 'q', hl, h, ⟨f, hg, hstart, hplace ▸ hstop⟩, s, t, hsource,
    hs.trans hplace.symm⟩

/-- In a Java text block, the escape at fault is said to be where the content starts, which is a
line feed. -/
theorem not_decode_unsupportedEscape :
    ∃ l : Literal, locate 0 .java {} "@Query(\"\"\"\n    \\q\"\"\")" = [.literal l] ∧
      decode "@Query(\"\"\"\n    \\q\"\"\")" .java l =
        .error (.unsupportedEscape 10 (.unknown 'q')) ∧
      (dropBytes 10 "@Query(\"\"\"\n    \\q\"\"\")").head? = some '\n' ∧
      (dropBytes 15 "@Query(\"\"\"\n    \\q\"\"\")").take 2 = "\\q".toList :=
  ⟨⟨"Query", ⟨0, 7, 20⟩, [⟨⟨0, 7, 20⟩, ⟨0, 10, 17⟩, .triple, [], "\"\"\"", none⟩], .jpql⟩,
    by decide +kernel, by decide +kernel, by decide +kernel, by decide +kernel⟩

end SqlInlay.Host
