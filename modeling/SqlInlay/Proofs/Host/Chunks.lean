import SqlInlay.Proofs.Host.Contents
import SqlInlay.Proofs.Host.Layouts

/-!
# Escaped texts without some of their blanks

A block is not read as it stands between its quotes.  First the margin is taken off, and with it the
blanks of blank lines and, in Java, those at the ends of lines; only what is left is read for
escapes.  Where a layout put blanks in, this takes them away again.  But blanks of the text itself
may go with them, so it has to be known what reading makes of an escaped text that lacks some
blanks.

**Chunks.**  An escaped text is made of a `Chunk` for every character.  A chunk is an escape, in
which there is no blank, or the character itself: if a blank goes, then, it is a character of the
text, and never a part of an escape.

**Thinning.**  So an escaped text without some of its blanks can still be read.  It stands for a
text of no more characters, and for fewer if anything is missing (`exists_reads_of_thinned`).  That
is what makes the condition on a round trip exact: decoding gives the text back only if nothing of
it was taken off.

**Lines.**  Line feeds are kept in a block, and what reading might take off at their sides is
written as an escape: carriage returns, and in Java the space at the end of a line.  So nothing is
taken off the lines of an escaped block on its own (`readLine_of_mem_lines_escape`), and a text that
neither starts nor ends with a line feed is escaped to one that does not (`Unbroken.escape`).
-/

namespace SqlInlay.Host

open SqlInlay.Text

/-! ## Escapes hold no blanks

An escape is a backslash, a letter and digits.  None of these is a blank, and the lemmas say so for
each way of spelling a character.
-/

lemma not_isBlank_of_hexDigit? {c : Char} (h : (hexDigit? c).isSome = true) :
    isBlank c = false := by
  have hvalue : ∀ d : Char, d ≤ c ↔ d.toNat ≤ c.toNat := fun d => UInt32.le_iff_toNat_le
  have hvalue' : ∀ d : Char, c ≤ d ↔ c.toNat ≤ d.toNat := fun d => UInt32.le_iff_toNat_le
  have hrange : 48 ≤ c.toNat ∧ c.toNat ≤ 102 := by
    unfold hexDigit? at h
    simp only [hvalue, hvalue'] at h
    split_ifs at h with h₁ h₂ h₃
    · exact ⟨h₁.1, h₁.2.trans (by decide)⟩
    · exact ⟨Nat.le_trans (by decide) h₂.1, h₂.2⟩
    · exact ⟨Nat.le_trans (by decide) h₃.1, h₃.2.trans (by decide)⟩
    · cases h
  by_contra hblank
  simp only [Bool.not_eq_false, isBlank, Bool.or_eq_true, Bool.and_eq_true, decide_eq_true_eq,
    beq_iff_eq] at hblank
  omega

lemma not_isBlank_of_letter {letter : Char} (hletter : isBlank letter = false) :
    ∀ d ∈ ['\\', letter], isBlank d = false := by
  intro d hd
  rcases List.mem_cons.1 hd with rfl | hd
  · rfl
  · rwa [List.mem_singleton.1 hd]

lemma not_isBlank_of_hexPadded (letter : Char) (width n : Nat) (hletter : isBlank letter = false) :
    ∀ d ∈ '\\' :: letter :: hexPadded width n, isBlank d = false := by
  intro d hd
  rcases List.mem_cons.1 hd with rfl | hd
  · rfl
  rcases List.mem_cons.1 hd with rfl | hd
  · exact hletter
  · exact not_isBlank_of_hexDigit? (hexDigit?_of_mem_hexPadded hd)

lemma not_isBlank_of_spellCodePoint (language : Language) (c : Char) :
    ∀ d ∈ spellCodePoint language c, isBlank d = false := by
  have hunits : ∀ d ∈ (units c.toNat).flatMap fun n => '\\' :: 'u' :: hexPadded 4 n,
      isBlank d = false := by
    intro d hd
    obtain ⟨n, -, hd⟩ := List.mem_flatMap.1 hd
    exact not_isBlank_of_hexPadded 'u' 4 n rfl d hd
  cases language with
  | java => exact hunits
  | kotlin => exact hunits
  | python =>
    unfold spellCodePoint
    simp only
    split
    · exact not_isBlank_of_hexPadded 'U' 8 _ rfl
    · exact not_isBlank_of_hexPadded 'u' 4 _ rfl

lemma not_isBlank_of_spellControl (language : Language) (c : Char) :
    ∀ d ∈ spellControl language c, isBlank d = false := by
  cases language with
  | java => exact not_isBlank_of_hexPadded 'u' 4 _ rfl
  | kotlin => exact not_isBlank_of_hexPadded 'u' 4 _ rfl
  | python => exact not_isBlank_of_hexPadded 'x' 2 _ rfl

/-! ## Chunks -/

/-- What a character is written as in front of `after`: it is read back as the character in front of
anything that can be read, and it has no blanks unless it is the character itself. -/
structure Chunk (written : EscapeRule) (c : Char) (after : Option Char) (chunk : Text) :
    Prop where
  ne_nil : chunk ≠ []
  reads : ∀ u s, Reads written.language u s → Reads written.language (chunk ++ u) (c :: s)
  /-- Blanks are written as they are, unless they would be lost. -/
  blank : (∀ d ∈ chunk, isBlank d = false) ∨
    chunk = [c] ∧ (c = '\n' ∨ isControl c = false) ∧
      (written.block = true → written.language = .java → c = ' ' →
        after ≠ none ∧ after ≠ some '\n')

lemma chunk_escapeChar (written : EscapeRule) (c : Char) (after : Option Char) :
    Chunk written c after (escapeChar written c after) where
  ne_nil := by
    intro hnil
    rcases head?_escapeChar written c after with hhead | hchar
    · rw [hnil] at hhead
      cases hhead
    · rw [hnil] at hchar
      cases hchar
  reads := fun _ _ h => reads_escapeChar written c after h
  blank := by
    unfold escapeChar
    split_ifs with h₁ h₂ h₃ h₄ h₅ h₆ h₇ h₈ h₉
    · exact .inl (not_isBlank_of_letter rfl)
    · subst h₂
      exact .inr ⟨rfl, .inl rfl, fun _ _ h => absurd h (by decide)⟩
    · exact .inl (not_isBlank_of_letter rfl)
    · exact .inl (not_isBlank_of_letter rfl)
    · exact .inl (not_isBlank_of_letter rfl)
    · exact .inl (not_isBlank_of_letter rfl)
    · exact .inl (not_isBlank_of_letter rfl)
    · exact .inl (not_isBlank_of_spellControl _ c)
    · exact .inl (not_isBlank_of_spellCodePoint _ c)
    · refine .inr ⟨rfl, .inr (by simpa using h₈), ?_⟩
      intro hblock hjava hspace
      rw [← not_or]
      exact fun hafter => h₇ ⟨hspace, hblock, hjava, hafter⟩

lemma chunk_escapeQuote (written : EscapeRule)
    (hquote : written.quote = '"' ∨ written.quote = '\'') (run : Nat) (after : Option Char) :
    Chunk written written.quote after (escapeQuote written run after) where
  ne_nil := by
    unfold escapeQuote
    split <;> exact List.cons_ne_nil _ _
  reads := fun _ _ h => reads_escapeQuote written hquote run after h
  blank := by
    have hblank : isBlank written.quote = false := by
      rcases hquote with h | h <;> rw [h] <;> rfl
    left
    unfold escapeQuote
    split
    · simpa [hblank] using (by decide : isBlank '\\' = false)
    · simpa using hblank

/-- An escaped text is that of its first character and the rest.  The rest is escaped behind another
run of quotes, which is why the lemmas below speak of `escapeFrom` and any run. -/
lemma exists_chunk (written : EscapeRule) (hquote : written.quote = '"' ∨ written.quote = '\'')
    (run : Nat) (c : Char) (t : Text) :
    ∃ chunk next, escapeFrom written run (c :: t) = chunk ++ escapeFrom written next t ∧
      Chunk written c t.head? chunk := by
  rw [escapeFrom]
  split
  · rename_i hc
    subst hc
    exact ⟨_, _, rfl, chunk_escapeQuote written hquote run _⟩
  · exact ⟨_, _, rfl, chunk_escapeChar written c _⟩

/-! ## Thinned escapes

Thinning goes along the chunks.  In front of a chunk without blanks nothing can go
(`exists_of_thinned_append`); a chunk that is a blank goes or stays.
-/

/-- What starts without blanks starts so when it is thinned. -/
lemma exists_of_thinned_append {w t v : Text} (hw : ∀ c ∈ w, isBlank c = false)
    (h : Thinned (w ++ t) v) : ∃ u, v = w ++ u ∧ Thinned t u := by
  induction w generalizing v with
  | nil => exact ⟨v, rfl, h⟩
  | cons c w ih =>
    rw [List.forall_mem_cons] at hw
    cases h with
    | keep h =>
      obtain ⟨u, rfl, hu⟩ := ih hw.2 h
      exact ⟨u, rfl, hu⟩
    | drop hc h =>
      rw [hw.1] at hc
      cases hc

/-- **An escaped text without some of its blanks** can be read, and stands for less.  It stands for
as many characters only if nothing was taken away. -/
lemma exists_reads_of_thinned (written : EscapeRule)
    (hquote : written.quote = '"' ∨ written.quote = '\'') {run : Nat} {t v : Text}
    (h : Thinned (escapeFrom written run t) v) :
    ∃ s, Reads written.language v s ∧ s.length ≤ t.length ∧
      (s.length = t.length → v = escapeFrom written run t) := by
  induction t generalizing run v with
  | nil =>
    cases h
    exact ⟨[], .nil _, Nat.le_refl _, fun _ => rfl⟩
  | cons c t ih =>
    obtain ⟨chunk, next, hsplit, hchunk⟩ := exists_chunk written hquote run c t
    rw [hsplit] at h ⊢
    have hkept : ∀ u, Thinned (escapeFrom written next t) u →
        ∃ s, Reads written.language (chunk ++ u) s ∧ s.length ≤ (c :: t).length ∧
          (s.length = (c :: t).length → chunk ++ u = chunk ++ escapeFrom written next t) := by
      intro u hu
      obtain ⟨s, hreads, hle, hsame⟩ := ih hu
      refine ⟨c :: s, hchunk.reads u s hreads, Nat.succ_le_succ hle, ?_⟩
      intro hlength
      rw [hsame (Nat.succ.inj hlength)]
    rcases hchunk.blank with hblank | ⟨rfl, -⟩
    · obtain ⟨u, rfl, hu⟩ := exists_of_thinned_append hblank h
      exact hkept u hu
    · cases h with
      | keep hu => exact hkept _ hu
      | drop hc hu =>
        obtain ⟨s, hreads, hle, -⟩ := ih hu
        refine ⟨s, hreads, Nat.le_succ_of_le hle, ?_⟩
        intro hlength
        rw [List.length_cons] at hlength
        omega

/-! ## Lines of escaped texts -/

section Lines

variable {written : EscapeRule} {t : Text}

lemma not_mem_escapeFrom (hquote : written.quote = '"' ∨ written.quote = '\'') (run : Nat)
    (t : Text) : '\r' ∉ escapeFrom written run t := by
  induction t generalizing run with
  | nil => exact List.not_mem_nil
  | cons c t ih =>
    obtain ⟨chunk, next, hsplit, hchunk⟩ := exists_chunk written hquote run c t
    rw [hsplit, List.mem_append, not_or]
    refine ⟨?_, ih next⟩
    rcases hchunk.blank with hblank | ⟨rfl, hc, -⟩
    · intro hmem
      exact absurd (hblank _ hmem) (by decide)
    · intro hmem
      obtain rfl := List.mem_singleton.1 hmem
      rcases hc with hc | hc <;> exact absurd hc (by decide)

lemma dropReturns_of_not_mem (h : '\r' ∉ t) : dropReturns t = t := by
  fun_induction dropReturns t with
  | case1 => rfl
  | case2 => rfl
  | case3 c d t hreturn => exact absurd (hreturn.1 ▸ List.mem_cons_self ..) h
  | case4 c d t _ ih => rw [ih fun hmem => h (List.mem_cons_of_mem c hmem)]

/-- An escaped text ends as the text does, or in an escape, whose last character is no blank. -/
lemma last_escapeFrom (hquote : written.quote = '"' ∨ written.quote = '\'') (run : Nat)
    (t : Text) :
    ∀ d ∈ (escapeFrom written run t).getLast?, isBlank d = false ∨ d ∈ t.getLast? := by
  induction t generalizing run with
  | nil => simp [escapeFrom]
  | cons c t ih =>
    obtain ⟨chunk, next, hsplit, hchunk⟩ := exists_chunk written hquote run c t
    rw [hsplit]
    intro d hd
    rw [List.getLast?_append, Option.mem_def, Option.or_eq_some_iff] at hd
    rcases hd with hd | ⟨hnone, hd⟩
    · refine (ih next d hd).imp id ?_
      intro hlast
      rw [List.getLast?_cons, hlast]
      rfl
    · have ht : t = [] := by
        cases t with
        | nil => rfl
        | cons e t =>
          obtain ⟨chunk', next', hsplit', hchunk'⟩ := exists_chunk written hquote next e t
          rw [hsplit', List.getLast?_eq_none_iff, List.append_eq_nil_iff] at hnone
          exact absurd hnone.1 hchunk'.ne_nil
      subst ht
      rcases hchunk.blank with hblank | ⟨rfl, -⟩
      · exact .inl (hblank d (List.mem_of_getLast? hd))
      · exact .inr hd

/-- A text without line breaks at its ends is escaped as one. -/
lemma Unbroken.escape (ht : Unbroken t) (hquote : written.quote = '"' ∨ written.quote = '\'') :
    Unbroken (escape written t) where
  head := by
    intro c hc
    rcases head?_escapeFrom written 0 t with hhead | hhead
    · rw [Host.escape, hhead] at hc
      obtain rfl := Option.mem_some_iff.1 hc
      decide
    · rw [Host.escape, hhead] at hc
      exact ht.head c hc
  last := by
    intro c hc
    rcases last_escapeFrom hquote 0 t c hc with hblank | hlast
    · constructor <;> rintro rfl <;> exact absurd hblank (by decide)
    · exact ht.last c hlast

/-- A first line that is empty is all, or a line feed stands behind it. -/
lemma head?_of_lines_eq {ls : List Text} (h : lines t = [] :: ls) :
    t.head? = none ∨ t.head? = some '\n' := by
  cases t with
  | nil => exact .inl rfl
  | cons d t =>
    right
    by_contra hd
    obtain ⟨l, ms, hls⟩ := List.exists_cons_of_ne_nil (lines_ne_nil t)
    rw [lines_cons (fun h => hd (congrArg some h)) hls] at h
    cases h

/-- No line of an escaped Java block ends in a blank that is taken off: a space is written as an
escape there, and so are tabs and form feeds anywhere. -/
lemma not_isLineEndBlank_of_mem_lines (hquote : written.quote = '"' ∨ written.quote = '\'')
    (hblock : written.block = true) (hjava : written.language = .java) (run : Nat) (t : Text) :
    ∀ l ∈ lines (escapeFrom written run t), ∀ d ∈ l.getLast?, isLineEndBlank d = false := by
  induction t generalizing run with
  | nil =>
    intro l hl
    obtain rfl := List.mem_singleton.1 hl
    simp
  | cons c t ih =>
    obtain ⟨chunk, next, hsplit, hchunk⟩ := exists_chunk written hquote run c t
    obtain ⟨first, rest, hlines⟩ :=
      List.exists_cons_of_ne_nil (lines_ne_nil (escapeFrom written next t))
    have hbehind := ih next
    rw [hlines, List.forall_mem_cons] at hbehind
    have hfirst : ∀ w : Text, (first = [] → ∀ d ∈ w.getLast?, isLineEndBlank d = false) →
        ∀ d ∈ (w ++ first).getLast?, isLineEndBlank d = false := by
      intro w hw d hd
      rw [List.getLast?_append, Option.mem_def, Option.or_eq_some_iff] at hd
      rcases hd with hd | ⟨hnone, hd⟩
      · exact hbehind.1 d hd
      · exact hw (List.getLast?_eq_none_iff.1 hnone) d hd
    rw [hsplit]
    rcases hchunk.blank with hblank | ⟨rfl, hc, hspace⟩
    · have hline : '\n' ∉ chunk := fun hmem => absurd (hblank _ hmem) (by decide)
      rw [lines_append hline hlines, List.forall_mem_cons]
      refine ⟨hfirst chunk fun _ d hd => ?_, hbehind.2⟩
      by_contra hend
      have hd := hblank d (List.mem_of_getLast? hd)
      rw [isBlank_of_isLineEndBlank (by simpa using hend)] at hd
      cases hd
    · by_cases hnewline : c = '\n'
      · subst hnewline
        rw [List.singleton_append, lines_newline, hlines, List.forall_mem_cons]
        exact ⟨by simp, List.forall_mem_cons.2 hbehind⟩
      · rw [List.singleton_append, lines_cons hnewline hlines, List.forall_mem_cons]
        refine ⟨hfirst [c] fun hnil d hd => ?_, hbehind.2⟩
        obtain rfl := Option.mem_some_iff.1 hd
        by_contra hend
        simp only [Bool.not_eq_false, isLineEndBlank, Bool.or_eq_true, beq_iff_eq] at hend
        rcases hend with (rfl | rfl) | rfl
        · -- A space in front of the end of the line would have been escaped.
          obtain ⟨hmore, hfeed⟩ := hspace hblock hjava rfl
          rw [hnil] at hlines
          rcases head?_of_lines_eq hlines with hhead | hhead
          · rcases head?_escapeFrom written next t with h | h <;> rw [hhead] at h
            · cases h
            · exact hmore h.symm
          · rcases head?_escapeFrom written next t with h | h <;> rw [hhead] at h
            · cases h
            · exact hfeed h.symm
        · exact absurd (hc.resolve_left hnewline) (by decide)
        · exact absurd (hc.resolve_left hnewline) (by decide)

/-- Nothing is taken off the lines of an escaped block. -/
lemma readLine_of_mem_lines_escape (hquote : written.quote = '"' ∨ written.quote = '\'')
    (hblock : written.block = true) (t : Text) :
    ∀ l ∈ lines (dropReturns (escape written t)), readLine (written.language == .java) l = l := by
  have hreturns : dropReturns (escape written t) = escape written t :=
    dropReturns_of_not_mem (not_mem_escapeFrom hquote 0 t)
  rw [hreturns]
  intro l hl
  unfold readLine
  split
  · rename_i hjava
    exact trimEndWhile_of_getLast?
      (not_isLineEndBlank_of_mem_lines hquote hblock (by simpa using hjava) 0 t l hl)
  · rfl

end Lines

end SqlInlay.Host
