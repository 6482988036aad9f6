import SqlInlay.Proofs.Splice

/-!
# No smaller edit does the same

`Edit.between?` cuts away what the old and the new text have in common, first at the start and then
at the end of what is left.  The two compete for the same characters where a text repeats itself,
and yet `between?_minimal` holds: an edit that does the same within the same span removes as many
bytes or more, and inserts as many or more.  What an editor shows as changed is therefore no more
than has to be.

**Common ends.**  `bytes_common_le` is the reason.  Taking as much as possible at the start leaves
less for the end only where the end then takes all that is left of one of the texts, and of that
text nothing more could be kept.

**Any other edit** within the span leaves something at its start and something at its end, which the
old and the new text have in common (`exists_split_of_contains`).  Two edits that do the same differ
only in how much they leave, so removing as little as possible and inserting as little as possible
are one thing: what is removed and what is inserted differ by the same number of bytes for both.

**Characters, not bytes.**  What is cut away are whole characters, so two that begin with the same
bytes have nothing in common.  Smaller edits that split a character are none, for they could not be
carried out.
-/

namespace SqlInlay

open Text

/-! ## Common ends

Common endings are common openings of the reversed texts.  Both lemmas compare them with any other
opening and ending, not with the longest.
-/

/-- What both texts end with is no longer than what they have in common at their ends. -/
lemma bytes_le_of_suffix {u s t : Text} (hs : u <:+ s) (ht : u <:+ t) :
    bytes u ≤ bytes (commonOpening s.reverse t.reverse) := by
  obtain ⟨s', rfl⟩ := hs
  obtain ⟨t', rfl⟩ := ht
  rw [List.reverse_append, List.reverse_append, commonOpening_append, bytes_append, bytes_reverse]
  omega

/-- No two ends that texts have in common are longer than those that are cut away.  An ending may
reach back into the common opening of one text or of both, and then all that is left behind the
opening in this text is kept. -/
lemma bytes_common_le {old new opening m n ending : Text}
    (hold : old = opening ++ (m ++ ending)) (hnew : new = opening ++ (n ++ ending)) :
    bytes opening + bytes ending ≤ bytes (commonOpening old new) +
      bytes (commonOpening (old.drop (commonOpening old new).length).reverse
        (new.drop (commonOpening old new).length).reverse) := by
  obtain ⟨oldRest, holdRest⟩ := exists_eq_commonOpening_append old new
  obtain ⟨newRest, hnewRest⟩ := commonOpening_prefix old new
  have hopening : bytes opening ≤ bytes (commonOpening old new) := by
    rw [hold, hnew, commonOpening_append, bytes_append]
    omega
  have holdDrop : old.drop (commonOpening old new).length = oldRest :=
    (congrArg (List.drop _) holdRest).trans List.drop_left
  have hnewDrop : new.drop (commonOpening old new).length = newRest :=
    (congrArg (List.drop _) hnewRest).trans List.drop_left
  rw [holdDrop, hnewDrop]
  have holdBytes : bytes (commonOpening old new) + bytes oldRest =
      bytes opening + bytes m + bytes ending := by
    rw [← bytes_append, ← holdRest, hold]
    simp only [bytes_append]
    omega
  have hnewBytes : bytes (commonOpening old new) + bytes newRest =
      bytes opening + bytes n + bytes ending := by
    rw [← bytes_append, ← hnewRest, hnew]
    simp only [bytes_append]
    omega
  have holdEnding : ending <:+ old := ⟨opening ++ m, by rw [hold, List.append_assoc]⟩
  have hnewEnding : ending <:+ new := ⟨opening ++ n, by rw [hnew, List.append_assoc]⟩
  -- where all that is left of one text ends the other, nothing more of it can be kept
  have hwhole : oldRest <:+ newRest ∨ newRest <:+ oldRest → bytes opening + bytes ending ≤
      bytes (commonOpening old new) +
        bytes (commonOpening oldRest.reverse newRest.reverse) := by
    rintro (hsuffix | hsuffix)
    · have := bytes_le_of_suffix List.suffix_rfl hsuffix
      omega
    · have := bytes_le_of_suffix hsuffix List.suffix_rfl
      omega
  rcases List.suffix_or_suffix_of_suffix holdEnding ⟨_, holdRest.symm⟩ with hend | hend <;>
    rcases List.suffix_or_suffix_of_suffix hnewEnding ⟨_, hnewRest.symm⟩ with hend' | hend'
  · have := bytes_le_of_suffix hend hend'
    omega
  · exact hwhole (.inr (hend'.trans hend))
  · exact hwhole (.inl (hend.trans hend'))
  · exact hwhole (List.suffix_or_suffix_of_suffix hend hend')

/-! ## Edits within a span

A single edit is carried out by cutting the text in three, and an edit within a span by cutting what
the span covers in three once more.
-/

variable {s : Span} {text : Text}

/-- One edit of a batch of its own. -/
lemma applyEdits_singleton {e : Edit} (front covered back : Text)
    (hstart : e.span.start = bytes front) (hstop : e.span.stop = e.span.start + bytes covered) :
    applyEdits [e] (front ++ (covered ++ back)) = .ok (front ++ (e.replacement ++ back)) := by
  refine Splice.applyEdits (.cons ?_ hstop .nil)
  rw [Nat.zero_add, hstart]

/-- A span within another one divides what that one covers. -/
lemma exists_split_of_contains {t : Span} {front covered back : Text}
    (hstart : s.start = bytes front) (hstop : s.stop = s.start + bytes covered)
    (hcontains : s.contains t = true) (ht : t.Cuts (front ++ (covered ++ back))) :
    ∃ opening m ending, covered = opening ++ (m ++ ending) ∧
      t.start = bytes (front ++ opening) ∧ t.stop = t.start + bytes m := by
  obtain ⟨-, hfirst, hlast⟩ := Span.contains_iff.1 hcontains
  obtain ⟨front', m, back', htext, hstart', hstop'⟩ := ht
  obtain ⟨opening, rfl, hrest⟩ := prefix_of_bytes_le htext (by omega)
  rw [← List.append_assoc] at hrest
  rw [bytes_append] at hstart'
  obtain ⟨ending, hending, -⟩ := prefix_of_bytes_le hrest.symm (by rw [bytes_append]; omega)
  exact ⟨opening, m, ending, by rw [hending, List.append_assoc], by rw [hstart', bytes_append],
    hstop'⟩

/-- **Edits are right and as small as can be.**  There is none exactly where nothing is to change.
Any other lies within the span and falls between characters, turns what the span covers into the
replacement, and removes and inserts no more bytes than any edit within the span that does the
same. -/
theorem between?_minimal (hs : s.Cuts text) (new : Text) :
    (Edit.between? text s new = none ↔ s.of text = new) ∧
    ∀ e, Edit.between? text s new = some e →
      s.contains e.span = true ∧ e.span.Cuts text ∧
      applyEdits [e] text = .ok (takeBytes s.start text ++ new ++ dropBytes s.stop text) ∧
      ∀ f : Edit, s.contains f.span = true → f.span.Cuts text →
        applyEdits [f] text = applyEdits [e] text →
          e.span.length ≤ f.span.length ∧ bytes e.replacement ≤ bytes f.replacement := by
  refine ⟨Edit.between?_eq_none_iff, fun e he => ?_⟩
  have hcontains := (contains_of_between? hs he).1
  obtain ⟨front, covered, back, rfl, hstart, hstop⟩ := hs
  have hne : covered ≠ new := by
    rintro rfl
    have hnone := Edit.between?_eq_none_iff.2
      (slice_bytes (t := back) hstart (by rw [hstop, hstart]) : s.of _ = covered)
    rw [hnone] at he
    cases he
  obtain ⟨e', m, he', hcut⟩ := between?_of_ne front covered back hstart hstop hne
  obtain rfl : e = e' := Option.some.inj (he.symm.trans he')
  have hmost := @bytes_common_le covered new
  generalize hopening : commonOpening covered new = opening at hcut hmost
  generalize commonOpening (covered.drop opening.length).reverse
    (new.drop opening.length).reverse = ending at hcut hmost
  obtain ⟨hold, hnew, hbuffer, hfirst, hlast⟩ := hcut
  have htext : front ++ (covered ++ back) =
      front ++ opening ++ (m ++ (ending.reverse ++ back)) := by simp [hold]
  have hstart' : e.span.start = bytes (front ++ opening) := by
    rw [hfirst, hstart, bytes_append]
  have happly : applyEdits [e] (front ++ (covered ++ back)) = .ok (front ++ (new ++ back)) := by
    rw [htext, applyEdits_singleton _ _ _ hstart' hlast, hnew]
    simp
  refine ⟨hcontains, ⟨_, _, _, htext, hstart', hlast⟩, ?_, fun f hf hcuts hsame => ?_⟩
  · have hbehind : s.stop = bytes (front ++ covered) := by rw [hstop, hstart, bytes_append]
    rw [happly, hstart, takeBytes_bytes_append, hbehind, ← List.append_assoc front covered,
      dropBytes_bytes_append, List.append_assoc]
  -- the other edit divides what is covered as well, and so it keeps two ends
  · obtain ⟨opening', m', ending', hold', hfirst', hlast'⟩ :=
      exists_split_of_contains hstart hstop hf hcuts
    have htext' : front ++ (covered ++ back) =
        front ++ opening' ++ (m' ++ (ending' ++ back)) := by simp [hold']
    have hnew' : new = opening' ++ (f.replacement ++ ending') := by
      rw [happly, htext', applyEdits_singleton _ _ _ hfirst' hlast'] at hsame
      have hout : front ++ (opening' ++ (f.replacement ++ ending') ++ back) =
          front ++ (new ++ back) := by simpa using Except.ok.inj hsame
      exact (List.append_cancel_right (List.append_cancel_left hout)).symm
    have hends := hmost hold' hnew'
    have holdBytes := congrArg bytes (hold.symm.trans hold')
    have hnewBytes := congrArg bytes (hnew.symm.trans hnew')
    simp only [bytes_append, bytes_reverse] at holdBytes hnewBytes
    unfold Span.length
    omega

/-- In a run of `a`, the start takes what both texts share; `é` and `è` share a byte and are
different characters, so all of both is exchanged. -/
theorem between?_minimal_run :
    let text : Text := ['x', 'a', 'a', 'é', 'y']
    let s : Span := ⟨0, 1, 5⟩
    s.Cuts text ∧ Edit.between? text s ['a', 'a', 'é'] = none ∧
      Edit.between? text s ['a', 'a', 'a', 'é'] = some ⟨⟨0, 3, 3⟩, ['a']⟩ ∧
      Edit.between? text s ['a', 'è'] = some ⟨⟨0, 2, 5⟩, ['è']⟩ ∧
      ∀ f : Edit, s.contains f.span = true → f.span.Cuts text →
        applyEdits [f] text = .ok ['x', 'a', 'è', 'y'] →
          3 ≤ f.span.length ∧ 2 ≤ bytes f.replacement := by
  intro text s
  have hs : s.Cuts text := ⟨['x'], ['a', 'a', 'é'], ['y'], rfl, rfl, rfl⟩
  have hrun : Edit.between? text s ['a', 'a', 'a', 'é'] = some ⟨⟨0, 3, 3⟩, ['a']⟩ := by
    decide +kernel
  have hchanged : Edit.between? text s ['a', 'è'] = some ⟨⟨0, 2, 5⟩, ['è']⟩ := by decide +kernel
  obtain ⟨-, hleast⟩ := between?_minimal hs ['a', 'è']
  obtain ⟨-, -, happly, hfewest⟩ := hleast _ hchanged
  have hout : takeBytes s.start text ++ ['a', 'è'] ++ dropBytes s.stop text =
      ['x', 'a', 'è', 'y'] := by decide +kernel
  refine ⟨hs, (between?_minimal hs _).1.2 (by decide), hrun, hchanged,
    fun f hf hcuts hsame => ?_⟩
  exact hfewest f hf hcuts (hsame.trans (happly.trans (congrArg _ hout)).symm)

end SqlInlay
