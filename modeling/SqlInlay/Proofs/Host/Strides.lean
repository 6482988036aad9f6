import SqlInlay.Proofs.Host.Extents

/-!
# The strides of a scan

Every scan of a host source goes over it in the same strides: comments and literals as a whole, all
else character by character.  The letters in front of a string are strides of their own, so that a
stride depends on nothing that was passed before it.  A scan itself does depend on that: the letters
belong to a string if no word leads up to them, and are the end of a name otherwise.

**Landing.**  `Strides` says that a scan that stands in front of one text comes to stand in front of
another.  Whatever a scan passes at once, it lands where the strides do.

* `strides_string` — a string, with its letters.
* `strides_unclosed` — the rest of a line, if a string never closes.
* `strides_sealed` — a comment or a literal of any kind.
* `strides_trivia` — white space and comments, as many as there are.

So scans that do different things at the same place can be compared by where they land, and since
there is one way to go (`Strides.total`), of two places that strides lead to one lies behind the
other.
-/

namespace SqlInlay.Host

open SqlInlay.Text

/-! ## Strides -/

/-- The further characters of the stride that starts with `x`. -/
def strideTail (language : Language) (x : Char) (t : Text) : Nat :=
  (sealedTail? language (some '_') x t).getD 0

lemma blockLength_le (nested : Bool) (depth : Nat) (t : Text) :
    blockLength nested depth t ≤ t.length := by
  fun_induction blockLength nested depth t <;> simp only [List.length_cons, List.length_nil] at * <;>
    omega

lemma charLiteralTail_le (t : Text) : charLiteralTail t ≤ t.length := by
  fun_induction charLiteralTail t <;> simp only [List.length_cons, List.length_nil] at * <;> omega

/-- A stride does not go beyond the text, whichever of a comment, a string, the rest of a line and a
character it passes. -/
lemma strideTail_le (language : Language) (x : Char) (t : Text) :
    strideTail language x t ≤ t.length := by
  have hline : lineLength t ≤ t.length := (List.takeWhile_prefix _).length_le
  have hblock := blockLength_le (language == .kotlin) 0 (x :: t)
  have hchar := charLiteralTail_le t
  rw [List.length_cons] at hblock
  have hcomment : ∀ k, commentTail? language x t = some k → k ≤ t.length := by
    intro k hk
    by_cases hlanguage : language = .python
    · subst hlanguage
      simp only [commentTail?] at hk
      split at hk
      · exact Option.some.inj hk ▸ hline
      · cases hk
    · obtain ⟨-, ⟨-, -, rfl⟩ | ⟨-, -, rfl⟩⟩ := commentTail?_slash hlanguage hk
      · exact hline
      · omega
  have hliteral : ∀ k, literalTail? language (some '_') x t = some k → k ≤ t.length := by
    intro k hk
    unfold literalTail? at hk
    split at hk
    · rename_i q hq
      have hlength := (prefix_of_quoted? hq).length_le
      rw [List.length_cons] at hlength
      have := Option.some.inj hk
      omega
    · exact Option.some.inj hk ▸ hline
    · split at hk
      · exact Option.some.inj hk ▸ hchar
      · cases hk
  rw [strideTail, sealedTail?]
  cases hread : commentTail? language x t with
  | some k => exact hcomment k hread
  | none =>
    cases hread' : literalTail? language (some '_') x t with
    | some k => exact hliteral k hread'
    | none => exact Nat.zero_le _

/-- A scan that stands in front of the first text comes to stand in front of the second.  The
relation speaks of texts and not of places, for what stands in front plays no part in where a stride
ends. -/
inductive Strides (language : Language) : Text → Text → Prop
  | refl (t : Text) : Strides language t t
  | step {x : Char} {t r : Text} (h : Strides language (t.drop (strideTail language x t)) r) :
      Strides language (x :: t) r

namespace Strides

variable {language : Language} {t r s : Text}

lemma trans (h : Strides language t r) (h' : Strides language r s) : Strides language t s := by
  induction h with
  | refl => exact h'
  | step _ ih => exact .step (ih h')

lemma suffix (h : Strides language t r) : r <:+ t := by
  induction h with
  | refl => exact List.suffix_rfl
  | step _ ih => exact (ih.trans (List.drop_suffix _ _)).trans (List.suffix_cons _ _)

/-- There is one way to go. -/
lemma total (h : Strides language t r) (h' : Strides language t s) :
    Strides language r s ∨ Strides language s r := by
  induction h with
  | refl => exact .inl h'
  | step h ih =>
    cases h' with
    | refl => exact .inr (.step h)
    | step h' => exact ih h'

end Strides

/-! ## What scans pass at once -/

lemma markerOf_word (language : Language) (t : Text) : markerOf language (some '_') t = [] := by
  cases language <;> simp [markerOf, pythonMarker, isHostWordChar]

/-- Quotes, and what opens a comment, start a stride of several characters; nothing else does. -/
lemma strideTail_eq_zero {language : Language} {x : Char} (hx : x ∉ "\"'#/".toList) (t : Text) :
    strideTail language x t = 0 := by
  have hdelimiter : delimiter? language (x :: t) = none := by
    rw [Option.eq_none_iff_forall_ne_some]
    intro delimiter h
    obtain ⟨⟨rest, hrest⟩, hquotes⟩ := delimiter?_cases h
    simp only [List.mem_cons, List.not_mem_nil, or_false] at hquotes
    rcases hquotes with (rfl | rfl) | ⟨-, rfl | rfl⟩ <;>
    · obtain rfl := (List.cons.inj hrest).1
      exact hx (by decide)
  have hcomment : x ≠ '#' ∧ x ≠ '/' := by
    constructor <;> rintro rfl <;> exact hx (by decide)
  have happos : x ≠ '\'' := by rintro rfl; exact hx (by decide)
  simp [strideTail, sealedTail?, commentTail?_eq_none hcomment, literalTail?, quoted?,
    markerOf_word, hdelimiter, happos]

lemma strides_cons {language : Language} {x : Char} (hx : x ∉ "\"'#/".toList) (t : Text) :
    Strides language (x :: t) t := by
  refine .step ?_
  rw [strideTail_eq_zero hx]
  exact .refl t

/-- Plain characters are passed one by one. -/
lemma strides_append {language : Language} {s : Text} (hs : ∀ x ∈ s, x ∉ "\"'#/".toList)
    (t : Text) : Strides language (s ++ t) t := by
  induction s with
  | nil => exact .refl t
  | cons x s ih =>
    rw [List.forall_mem_cons] at hs
    exact (strides_cons hs.1 _).trans (ih hs.2)

/-- The letters in front of a string are passed one by one, and the string reads the same behind
them. -/
lemma exists_behind_marker (language : Language) (before : Option Char) (t : Text) :
    ∃ marker u, markerOf language before t = marker ∧ t = marker ++ u ∧
      (∀ x ∈ marker, x ∉ "\"'#/".toList ∧ x ≠ '\n') ∧
      quoted? language (some '_') u =
        (quoted? language before t).map (Option.map fun q => { q with marker := [] }) := by
  obtain ⟨u, hu⟩ := markerOf_prefix language before t
  have hletters : ∀ x ∈ markerOf language before t, x ∉ "\"'#/".toList ∧ x ≠ '\n' := by
    intro x hx
    have hletter := mem_of_mem_markerOf hx
    revert hletter
    simp
    rintro (rfl | rfl | rfl | rfl | rfl | rfl | rfl | rfl) <;> decide
  generalize hmarker : markerOf language before t = marker at hu hletters
  have hdrop : t.drop marker.length = u := by
    rw [← hu]
    exact List.drop_left
  refine ⟨marker, u, rfl, hu.symm, hletters, ?_⟩
  simp only [quoted?, markerOf_word, hmarker, hdrop, List.length_nil, List.drop_zero,
    Option.map_map]
  congr 1
  funext delimiter
  simp [Option.map_map, Function.comp_def]

/-- Behind its letters a string opens with a quote, which takes the stride through the string, or to
the end of the line if the string never closes. -/
lemma strideTail_of_quoted? {language : Language} {u : Text} {read : Option Quoted}
    (h : quoted? language (some '_') u = some read) :
    ∃ x v, u = x :: v ∧ x ≠ '\n' ∧
      strideTail language x v = (read.map (·.source.length - 1)).getD (lineLength v) := by
  obtain ⟨x, v, rfl, hx⟩ : ∃ x v, u = x :: v ∧ (x = '"' ∨ x = '\'') := by
    obtain ⟨delimiter, hdelimiter, -⟩ := Option.map_eq_some_iff.1 h
    rw [markerOf_word, List.length_nil, List.drop_zero] at hdelimiter
    obtain ⟨⟨rest, rfl⟩, hquotes⟩ := delimiter?_cases hdelimiter
    simp only [List.mem_cons, List.not_mem_nil, or_false] at hquotes
    rcases hquotes with (rfl | rfl) | ⟨-, rfl | rfl⟩
    · exact ⟨'"', _, rfl, .inl rfl⟩
    · exact ⟨'"', _, rfl, .inl rfl⟩
    · exact ⟨'\'', _, rfl, .inr rfl⟩
    · exact ⟨'\'', _, rfl, .inr rfl⟩
  have hcomment : x ≠ '#' ∧ x ≠ '/' := by
    rcases hx with rfl | rfl <;> decide
  refine ⟨x, v, rfl, by rcases hx with rfl | rfl <;> decide, ?_⟩
  simp only [strideTail, sealedTail?, commentTail?_eq_none hcomment, literalTail?, h]
  cases read <;> rfl

/-- A string is passed as a whole, but for the letters in front. -/
lemma strides_string {language : Language} {before : Option Char} {t : Text} {q : Quoted}
    (h : quoted? language before t = some (some q)) :
    Strides language t (t.drop q.source.length) := by
  obtain ⟨marker, u, hmarker, rfl, hletters, hread⟩ := exists_behind_marker language before t
  rw [h, Option.map_some, Option.map_some] at hread
  obtain ⟨x, v, rfl, -, htail⟩ := strideTail_of_quoted? hread
  have hlength : q.source.length =
      marker.length + ({ q with marker := [] } : Quoted).source.length := by
    obtain ⟨delimiter, -, hq⟩ := Option.map_eq_some_iff.1 h
    obtain ⟨content, -, rfl⟩ := Option.map_eq_some_iff.1 hq
    simp [Quoted.source, hmarker]
  have hend : (marker ++ x :: v).drop q.source.length =
      v.drop (({ q with marker := [] } : Quoted).source.length - 1) := by
    obtain ⟨n, hn⟩ := Nat.exists_eq_succ_of_ne_zero (length_source_pos hread).ne'
    rw [hlength, ← List.drop_drop, List.drop_left, hn]
    rfl
  refine (strides_append (fun y hy => (hletters y hy).1) _).trans (hend ▸ .step ?_)
  rw [htail]
  exact .refl _

lemma lineLength_append {s : Text} (hs : '\n' ∉ s) (u : Text) :
    lineLength (s ++ u) = s.length + lineLength u := by
  have hall : ∀ c ∈ s, decide (c ≠ '\n') = true := fun c hc => by
    have hne : c ≠ '\n' := fun heq => hs (heq ▸ hc)
    simpa using hne
  rw [lineLength, List.takeWhile_append_of_pos hall, List.length_append, lineLength]

/-- What is left of a text behind its first line. -/
lemma drop_lineLength_append {s : Text} (hs : '\n' ∉ s) (u : Text) :
    (s ++ u).drop (lineLength (s ++ u)) = u.drop (lineLength u) := by
  rw [lineLength_append hs, List.drop_append]
  simp

lemma drop_lineLength (t : Text) :
    t.drop (lineLength t) = [] ∨ ∃ u, t.drop (lineLength t) = '\n' :: u := by
  induction t with
  | nil => exact .inl rfl
  | cons c t ih =>
    by_cases hc : c = '\n'
    · exact .inr ⟨t, by simp [lineLength, hc]⟩
    · have hlength : lineLength (c :: t) = lineLength t + 1 := by simp [lineLength, hc]
      rwa [hlength, List.drop_succ_cons]

/-- A string that never closes is passed to the end of its line. -/
lemma strides_unclosed {language : Language} {before : Option Char} {x : Char} {t : Text}
    (h : quoted? language before (x :: t) = some none) :
    Strides language (x :: t) (t.drop (lineLength t)) := by
  obtain ⟨marker, u, -, hu, hletters, hread⟩ := exists_behind_marker language before (x :: t)
  rw [h, Option.map_some, Option.map_none] at hread
  obtain ⟨y, v, rfl, hy, htail⟩ := strideTail_of_quoted? hread
  have hline : ∀ z ∈ marker ++ [y], z ≠ '\n' := by
    rw [List.forall_mem_append]
    exact ⟨fun z hz => (hletters z hz).2, by simpa using hy⟩
  have hend : t.drop (lineLength t) = v.drop (lineLength v) := by
    have ht : x :: t = (marker ++ [y]) ++ v := by rw [hu]; simp
    obtain ⟨s, hs, rfl⟩ : ∃ s, (marker ++ [y]).tail = s ∧ t = s ++ v := by
      refine ⟨_, rfl, ?_⟩
      obtain ⟨z, s, hzs⟩ := List.exists_cons_of_ne_nil (show marker ++ [y] ≠ [] by simp)
      rw [hzs] at ht ⊢
      exact (List.cons.inj ht).2
    refine drop_lineLength_append (fun hmem => ?_) v
    exact hline '\n' (List.mem_of_mem_tail (hs ▸ hmem)) rfl
  rw [hu, hend]
  refine (strides_append (fun z hz => (hletters z hz).1) _).trans (.step ?_)
  rw [htail]
  exact .refl _

/-- Where a scan passes one character only, so does every other. -/
lemma strideTail_of_sealedTail?_eq_none {language : Language} {before : Option Char} {x : Char}
    {t : Text} (h : sealedTail? language before x t = none) : strideTail language x t = 0 := by
  obtain ⟨hcomment, hliteral⟩ : commentTail? language x t = none ∧
      literalTail? language before x t = none := by
    simpa [sealedTail?] using h
  have hquoted : quoted? language before (x :: t) = none ∧ ¬ (language ≠ .python ∧ x = '\'') := by
    unfold literalTail? at hliteral
    split at hliteral
    · cases hliteral
    · cases hliteral
    · rename_i hnone
      exact ⟨hnone, fun happos => by simp [happos] at hliteral⟩
  obtain ⟨marker, u, -, hu, hletters, hread⟩ := exists_behind_marker language before (x :: t)
  cases marker with
  | nil =>
    obtain rfl : x :: t = u := hu
    rw [hquoted.1] at hread
    simp only [strideTail, sealedTail?, hcomment, literalTail?, hread]
    simp [hquoted.2]
  | cons y marker =>
    obtain rfl : x = y := (List.cons.inj hu).1
    exact strideTail_eq_zero (hletters x (List.mem_cons_self ..)).1 t

lemma strides_one {language : Language} {before : Option Char} {x : Char} {t : Text}
    (h : sealedTail? language before x t = none) : Strides language (x :: t) t := by
  refine .step ?_
  rw [strideTail_of_sealedTail?_eq_none h]
  exact .refl t

/-- What a scan passes at once takes it along in strides.  A comment is one stride.  A string with
letters in front of it is one stride for each letter and one for the quotes; a string without them
is read alike behind any character. -/
lemma strides_sealed {language : Language} {before : Option Char} {x : Char} {t : Text} {n : Nat}
    (h : sealedTail? language before x t = some n) : Strides language (x :: t) (t.drop n) := by
  cases hcomment : commentTail? language x t with
  | some k =>
    have hn : n = k := by simpa [sealedTail?, hcomment] using h.symm
    have hstride : strideTail language x t = k := by simp [strideTail, sealedTail?, hcomment]
    refine .step ?_
    rw [hstride, hn]
    exact .refl _
  | none =>
    have hliteral : literalTail? language before x t = some n := by
      simpa [sealedTail?, hcomment] using h
    unfold literalTail? at hliteral
    split at hliteral
    · rename_i q hq
      obtain rfl := Option.some.inj hliteral
      obtain ⟨m, hm⟩ := Nat.exists_eq_succ_of_ne_zero (length_source_pos hq).ne'
      have hstrides := strides_string hq
      rw [hm] at hstrides ⊢
      exact hstrides
    · rename_i hq
      obtain rfl := Option.some.inj hliteral
      exact strides_unclosed hq
    · split at hliteral
      · rename_i hq happos
        obtain rfl := Option.some.inj hliteral
        have hmarker : ∀ b, markerOf language b (x :: t) = [] := by
          intro b
          cases language <;> first | rfl | exact absurd rfl happos.1
        have hnone : quoted? language (some '_') (x :: t) = none := by
          rw [← hq, quoted?, quoted?, hmarker, hmarker]
        refine .step ?_
        simp only [strideTail, sealedTail?, hcomment, literalTail?, hnone]
        simp [happos, Strides.refl]
      · cases hliteral

/-! ## White space and comments -/

/-- White space and comments are passed in strides.  A backslash in front of a line break is two or
three of them, and a comment is one. -/
lemma trivia_stride {language : Language} {x : Char} {t : Text}
    (h : (trivia language (x :: t)).1 ≠ 0) :
    (trivia language (x :: t)).1 =
      (trivia language (t.drop (strideTail language x t))).1 + strideTail language x t + 1 := by
  rw [trivia] at h ⊢
  by_cases hblank : isBlank x = true
  · have hx : x ∉ "\"'#/".toList :=
      List.notMem_of_subset (by decide) (not_mem_of_isIdle (isIdle_of_isBlank hblank))
    simp [hblank, strideTail_eq_zero hx]
  · simp only [hblank, Bool.false_eq_true, if_false] at h ⊢
    by_cases hcontinued : x = '\\' ∧ language = .python
    · simp only [hcontinued, and_self, if_true] at h ⊢
      split at h
      · exact absurd rfl h
      · rename_i k hbreak
        obtain ⟨rfl, rfl⟩ := hcontinued
        rw [strideTail_eq_zero (by decide), List.drop_zero, Nat.add_zero]
        have hnewline : ∀ u, trivia .python ('\n' :: u) =
            ((trivia .python u).1 + 1, (trivia .python u).2) := fun u => by
          rw [trivia]; simp [show isBlank '\n' = true by decide]
        have hreturn : ∀ u, trivia .python ('\r' :: u) =
            ((trivia .python u).1 + 1, (trivia .python u).2) := fun u => by
          rw [trivia]; simp [show isBlank '\r' = true by decide]
        unfold lineBreakLength? at hbreak
        split at hbreak
        · obtain rfl := Option.some.inj hbreak
          simp [hnewline]
        · obtain rfl := Option.some.inj hbreak
          simp [hreturn, hnewline]
        · cases hbreak
    · simp only [hcontinued, if_false] at h ⊢
      cases hcomment : commentTail? language x t with
      | none => simp [hcomment] at h
      | some k =>
        have hstride : strideTail language x t = k := by simp [strideTail, sealedTail?, hcomment]
        simp [hstride]

lemma drop_trivia_stride {language : Language} {x : Char} {t : Text}
    (h : (trivia language (x :: t)).1 ≠ 0) :
    (x :: t).drop (trivia language (x :: t)).1 =
      (t.drop (strideTail language x t)).drop
        (trivia language (t.drop (strideTail language x t))).1 := by
  rw [trivia_stride h, List.drop_succ_cons, List.drop_drop, Nat.add_comm]

lemma strides_trivia (language : Language) (t : Text) :
    Strides language t (t.drop (trivia language t).1) := by
  induction hn : t.length using Nat.strongRecOn generalizing t with
  | ind n ih =>
    subst hn
    cases t with
    | nil =>
      rw [List.drop_nil]
      exact .refl []
    | cons x t =>
      by_cases hzero : (trivia language (x :: t)).1 = 0
      · rw [hzero]
        exact .refl _
      · rw [drop_trivia_stride hzero]
        refine .step (ih _ ?_ _ rfl)
        simp only [List.length_drop, List.length_cons]
        omega

/-- Behind white space and comments there are no more of them. -/
lemma trivia_drop_trivia (language : Language) (t : Text) :
    (trivia language (t.drop (trivia language t).1)).1 = 0 := by
  induction hn : t.length using Nat.strongRecOn generalizing t with
  | ind n ih =>
    subst hn
    cases t with
    | nil => rw [List.drop_nil, trivia]
    | cons x t =>
      by_cases hzero : (trivia language (x :: t)).1 = 0
      · rw [hzero]
        exact hzero
      · rw [drop_trivia_stride hzero]
        refine ih _ ?_ _ rfl
        simp only [List.length_drop, List.length_cons]
        omega

/-- A place that is met lies behind the white space and comments here, or they go on there. -/
lemma Strides.behind_trivia {language : Language} {t r : Text} (h : Strides language t r) :
    Strides language (t.drop (trivia language t).1) r ∨
      t.drop (trivia language t).1 = r.drop (trivia language r).1 := by
  induction h with
  | refl => exact .inr rfl
  | @step x t r h ih =>
    by_cases hzero : (trivia language (x :: t)).1 = 0
    · rw [hzero]
      exact .inl (.step h)
    · rw [drop_trivia_stride hzero]
      exact ih

/-- A block comment that ends before the text does ends in a slash. -/
lemma getLast?_take_blockLength (nested : Bool) (depth : Nat) {t : Text}
    (h : blockLength nested depth t < t.length) :
    (t.take (blockLength nested depth t)).getLast? = some '/' := by
  have hlast : ∀ (c : Char) (n : Nat) (u : Text), (u.take n).getLast? = some '/' →
      ((c :: u).take (1 + n)).getLast? = some '/' := fun c n u hu => by
    rw [Nat.add_comm, List.take_succ_cons, List.getLast?_cons, hu]
    rfl
  fun_induction blockLength nested depth t with
  | case1 => simp at h
  | case2 => simp at h
  | case3 depth c d t _ ih =>
    rw [show 2 + blockLength nested (depth + 1) t = 1 + (1 + blockLength nested (depth + 1) t) by
      omega]
    exact hlast _ _ _ (hlast _ _ _ (ih (by simp only [List.length_cons] at h; omega)))
  | case4 depth c d t _ hclose =>
    simp [hclose.2]
  | case5 depth c d t _ _ _ ih =>
    rw [show 2 + blockLength nested (depth - 1) t = 1 + (1 + blockLength nested (depth - 1) t) by
      omega]
    exact hlast _ _ _ (hlast _ _ _ (ih (by simp only [List.length_cons] at h; omega)))
  | case6 depth c d t _ _ ih =>
    exact hlast _ _ _ (ih (by simp only [List.length_cons] at h ⊢; omega))

/-- A comment with more text behind it, but no further blanks, ends in a slash.  It is a block
comment that closes, for a line comment would have its line feed behind it. -/
lemma getLast?_comment {language : Language} {x : Char} {t : Text} {k : Nat}
    (h : commentTail? language x t = some k) (hrest : t.drop k ≠ [])
    (hnone : (trivia language (t.drop k)).1 = 0) : (x :: t.take k).getLast? = some '/' := by
  have hline : k ≠ lineLength t := by
    rintro rfl
    rcases drop_lineLength t with hnil | ⟨u, hu⟩
    · exact hrest hnil
    · rw [hu, trivia] at hnone
      simp [show isBlank '\n' = true by decide] at hnone
  by_cases hlanguage : language = .python
  · subst hlanguage
    simp only [commentTail?] at h
    split at h
    · exact absurd (Option.some.inj h).symm hline
    · cases h
  · obtain ⟨rfl, ⟨u, -, hk⟩ | ⟨u, rfl, hk⟩⟩ := commentTail?_slash hlanguage h
    · exact absurd hk hline
    · have hpos := blockLength_pos (language == .kotlin) 0 (List.cons_ne_nil '/' ('*' :: u))
      have hlength : blockLength (language == .kotlin) 0 ('/' :: '*' :: u) = k + 1 := by omega
      have hlast := getLast?_take_blockLength (language == .kotlin) 0 (t := '/' :: '*' :: u)
      rw [hlength, List.take_succ_cons] at hlast
      refine hlast ?_
      have hlong := List.length_pos_iff.2 hrest
      simp only [List.length_drop, List.length_cons] at hlong ⊢
      omega

/-- What is passed as white space or a comment. -/
lemma stride_of_trivia {language : Language} {x : Char} {t : Text}
    (h : (trivia language (x :: t)).1 ≠ 0) :
    (isIdle x = true ∧ strideTail language x t = 0) ∨
      commentTail? language x t = some (strideTail language x t) := by
  have hidle : ∀ {x : Char}, isIdle x = true → strideTail language x t = 0 := fun hx =>
    strideTail_eq_zero (List.notMem_of_subset (by decide) (not_mem_of_isIdle hx)) t
  rw [trivia] at h
  split_ifs at h with hblank hcontinued
  · exact .inl ⟨isIdle_of_isBlank hblank, hidle (isIdle_of_isBlank hblank)⟩
  · rw [hcontinued.1]
    exact .inl ⟨by decide, hidle (by decide)⟩
  · cases hcomment : commentTail? language x t with
    | none => simp [hcomment] at h
    | some k => exact .inr (by simp [strideTail, sealedTail?, hcomment])

/-- A character behind which a name may go on: one of a word, or the sign or dot of an
annotation. -/
def leadsOn (c : Char) : Bool := isHostWordChar c || c == '@' || c == '.'

lemma not_leadsOn_of_isIdle {c : Char} (h : isIdle c = true) : leadsOn c = false := by
  have hidle := forall_isIdle (p := fun c => !leadsOn c) (by decide +kernel) h
  simpa using hidle

/-- No name goes on behind white space and comments.  What they end with is a blank, a line break or
the end of a block comment, none of which is part of a name; the induction is along the strides. -/
lemma not_leadsOn_of_trivia {language : Language} {t : Text}
    (h : t.drop (trivia language t).1 ≠ []) :
    ∀ x ∈ (t.take (trivia language t).1).getLast?, leadsOn x = false := by
  induction hn : t.length using Nat.strongRecOn generalizing t with
  | ind n ih =>
    subst hn
    cases t with
    | nil => simp at h
    | cons x t =>
      by_cases hzero : (trivia language (x :: t)).1 = 0
      · simp [hzero]
      · rw [drop_trivia_stride hzero] at h
        have hlast := ih _ (by simp only [List.length_drop, List.length_cons]; omega) h rfl
        rw [trivia_stride hzero]
        generalize hk : strideTail language x t = k at *
        have htake : (x :: t).take ((trivia language (t.drop k)).1 + k + 1) =
            (x :: t.take k) ++ (t.drop k).take (trivia language (t.drop k)).1 := by
          rw [List.take_succ_cons, Nat.add_comm, List.take_add]
          rfl
        rw [htake]
        cases hbehind : (t.drop k).take (trivia language (t.drop k)).1 with
        | cons y u =>
          rw [hbehind] at hlast
          rw [List.getLast?_append_of_ne_nil _ (List.cons_ne_nil y u)]
          exact hlast
        | nil =>
          rw [List.append_nil]
          have hbare : t.drop k ≠ [] := fun hnil => h (by rw [hnil, List.drop_nil])
          have hnone : (trivia language (t.drop k)).1 = 0 := by
            simpa [List.take_eq_nil_iff, hbare] using hbehind
          intro y hy
          rcases stride_of_trivia hzero with ⟨hidle, hone⟩ | hcomment
          · obtain rfl : x = y := by simpa [hk.symm.trans hone] using hy
            exact not_leadsOn_of_isIdle hidle
          · rw [getLast?_comment (hk ▸ hcomment) hbare hnone] at hy
            obtain rfl := Option.some.inj hy
            decide +kernel

end SqlInlay.Host
