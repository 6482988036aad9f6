import SqlInlay.Host.Codec
import SqlInlay.Proofs.Host.Places

/-!
# What stands between fragments

A literal of several fragments is found by what stands between them, and when it is written again
its fragments are put down with the separators of the old ones.  So the same text is looked at
twice, once as a part of the source and once in front of another string, and it has to be taken for
a connection both times.

`Joins` says what such a text is, without naming a scan: a plus sign in white space, or in Python
white space alone.  `Quiet` is that white space, free of comments.

* `joins_of_joinerAt` goes from a source to the grammar: what was found to connect two fragments and
  holds no comment is of this form.  Most of it is `quiet_take_trivia`: white space that was passed
  is quiet unless a comment is in it, and then `hasHostComment` sees it, as decoding does.
* `joinerAt_of_joins` goes from the grammar to a scan: wherever a text of this form stands in front
  of a string, it is taken for a connection.

**Idle characters** are those that such a text consists of: blanks, the backslash and the plus sign.
No scan takes them for the start of a string, a comment or a bracket (`not_mem_of_isIdle`), and none
of them belongs to a word, so what stands behind them is as free as the start of a text.

**Two kinds of white space.**  In Python a line that ends in a backslash goes on in the next one.
`Quiet.continued` is that case, and `Joins.side` is the other one in which the language counts.
-/

namespace SqlInlay.Host

open SqlInlay.Text

/-! ## Idle characters

A predicate on idle characters is checked on each of them: the blanks are finitely many, and
`forall_isIdle` lists them.  The scans are then told apart by the characters that they start at.
-/

/-- A character that may stand between fragments: a blank, the backslash that carries a line on, or
the plus sign. -/
def isIdle (c : Char) : Bool := isBlank c || c == '\\' || c == '+'

lemma isIdle_of_isBlank {c : Char} (h : isBlank c = true) : isIdle c = true := by
  simp [isIdle, h]

/-- A predicate on characters that holds of every idle one, being checked on each of them.  The
numbers are the code points of the blanks, in order, and those of the backslash and the plus
sign. -/
lemma forall_isIdle {p : Char → Bool}
    (h : ∀ n ∈ [9, 10, 11, 12, 13, 0x20, 0x85, 0xA0, 0x1680, 0x2000, 0x2001, 0x2002, 0x2003,
      0x2004, 0x2005, 0x2006, 0x2007, 0x2008, 0x2009, 0x200A, 0x2028, 0x2029, 0x202F, 0x205F,
      0x3000, 0x5C, 0x2B], p (Char.ofNat n) = true) {c : Char} (hc : isIdle c = true) :
    p c = true := by
  have hcode : ∀ {n : Nat}, c.toNat = n → Char.ofNat n = c := fun hn => by
    rw [← hn, Char.ofNat_toNat]
  have hmem : c.toNat ∈ [9, 10, 11, 12, 13, 0x20, 0x85, 0xA0, 0x1680, 0x2000, 0x2001, 0x2002,
      0x2003, 0x2004, 0x2005, 0x2006, 0x2007, 0x2008, 0x2009, 0x200A, 0x2028, 0x2029, 0x202F,
      0x205F, 0x3000, 0x5C, 0x2B] := by
    simp only [isIdle, isBlank, Bool.or_eq_true, Bool.and_eq_true, decide_eq_true_eq,
      beq_iff_eq] at hc
    simp only [List.mem_cons, List.not_mem_nil, or_false]
    rcases hc with (hc | rfl) | rfl
    · omega
    · decide
    · decide
  have hp := h _ hmem
  rwa [hcode rfl] at hp

/-- An idle character belongs to no word. -/
lemma not_isHostWordChar_of_isIdle {c : Char} (h : isIdle c = true) : isHostWordChar c = false := by
  have hword := forall_isIdle (p := fun c => !isHostWordChar c) (by decide +kernel) h
  simpa using hword

/-- An idle character is no quote, bracket, comma or letter of a string, and opens no comment. -/
lemma not_mem_of_isIdle {c : Char} (h : isIdle c = true) :
    c ∉ "rRbBuUfF\"'#/([\x7b)]\x7d,".toList := by
  have hmem := forall_isIdle (p := fun c => !"rRbBuUfF\"'#/([\x7b)]\x7d,".toList.contains c)
    (by decide +kernel) h
  simpa using hmem

/-- Where a string has letters in front there is one of those letters. -/
lemma markerOf_eq_nil {language : Language} {before : Option Char} {c : Char} {t : Text}
    (hc : c ∉ "rRbBuUfF".toList) : markerOf language before (c :: t) = [] := by
  cases language with
  | java => rfl
  | kotlin => rfl
  | python =>
    have hletter : "rRbBuUfF".toList.contains c = false := by
      simpa using hc
    unfold markerOf pythonMarker
    simp only
    split
    · rfl
    · rw [List.take_succ_cons,
        List.takeWhile_cons_of_neg (by rw [hletter]; exact Bool.false_ne_true)]
      simp only [List.length_nil, List.drop_zero]
      split <;> rfl

/-- Where a string starts there is a quote or a letter in front of one. -/
lemma quoted?_eq_none {language : Language} {before : Option Char} {c : Char} {t : Text}
    (hc : c ∉ "rRbBuUfF\"'".toList) : quoted? language before (c :: t) = none := by
  have hmarker : markerOf language before (c :: t) = [] :=
    markerOf_eq_nil (List.notMem_of_subset (by decide) hc)
  have hdelimiter : delimiter? language (c :: t) = none := by
    rw [Option.eq_none_iff_forall_ne_some]
    intro delimiter h
    obtain ⟨⟨rest, hrest⟩, hquotes⟩ := delimiter?_cases h
    simp only [List.mem_cons, List.not_mem_nil, or_false] at hquotes
    rcases hquotes with (rfl | rfl) | ⟨-, rfl | rfl⟩ <;>
    · obtain rfl := (List.cons.inj hrest).1
      exact hc (by decide)
  simp only [quoted?, hmarker, List.length_nil, List.drop_zero, hdelimiter, Option.map_none]

/-- Where a comment starts there is a hash or a slash. -/
lemma commentTail?_eq_none {language : Language} {c : Char} (hc : c ≠ '#' ∧ c ≠ '/') (t : Text) :
    commentTail? language c t = none := by
  cases language <;> simp [commentTail?, hc.1, hc.2]

/-- Nothing is stepped over at an idle character. -/
lemma sealedTail?_eq_none {language : Language} {before : Option Char} {c : Char} {t : Text}
    (hc : c ∉ "rRbBuUfF\"'#/".toList) : sealedTail? language before c t = none := by
  have hquote : c ∉ "rRbBuUfF\"'".toList := List.notMem_of_subset (by decide) hc
  have hcomment : c ≠ '#' ∧ c ≠ '/' := by
    constructor <;> rintro rfl <;> exact hc (by decide)
  have happos : c ≠ '\'' := by rintro rfl; exact hc (by decide)
  simp [sealedTail?, commentTail?_eq_none hcomment, literalTail?, quoted?_eq_none hquote, happos]

/-! ## Quiet texts -/

/-- White space without comments: blanks, and in Python lines ended by a backslash. -/
inductive Quiet (language : Language) : Text → Prop
  | nil : Quiet language []
  | blank {c : Char} {s : Text} (hc : isBlank c = true) (h : Quiet language s) :
      Quiet language (c :: s)
  | continued {eol s : Text} (hlanguage : language = .python)
      (heol : eol = ['\n'] ∨ eol = ['\r', '\n']) (h : Quiet language s) :
      Quiet language ('\\' :: (eol ++ s))

namespace Quiet

variable {language : Language} {s : Text}

lemma isIdle (h : Quiet language s) : ∀ c ∈ s, isIdle c = true := by
  induction h with
  | nil => simp
  | blank hc h ih => exact List.forall_mem_cons.2 ⟨isIdle_of_isBlank hc, ih⟩
  | @continued eol s hlanguage heol h ih =>
    refine List.forall_mem_cons.2 ⟨by decide, fun c hc => ?_⟩
    rcases List.mem_append.1 hc with hc | hc
    · have hall : eol.all Host.isIdle = true := by
        rcases heol with rfl | rfl <;> decide
      exact List.all_eq_true.1 hall c hc
    · exact ih c hc

/-- It is passed over like the white space behind it. -/
lemma trivia_append (h : Quiet language s) (u : Text) :
    (trivia language (s ++ u)).1 = s.length + (trivia language u).1 := by
  induction h with
  | nil => simp
  | @blank c s hc h ih =>
    rw [List.cons_append, trivia]
    simp only [hc, if_true, ih, List.length_cons]
    omega
  | @continued eol s hlanguage heol h ih =>
    have hbreak : lineBreakLength? (eol ++ s ++ u) = some eol.length := by
      rcases heol with rfl | rfl <;> rfl
    have hdrop : (eol ++ s ++ u).drop eol.length = s ++ u := by
      rw [List.append_assoc, List.drop_left]
    have hblank : ¬ isBlank '\\' = true := by decide
    rw [List.cons_append, trivia]
    simp only [hblank, if_false, hlanguage, and_self, if_true, hbreak, hdrop,
      Bool.false_eq_true]
    rw [hlanguage] at ih
    simp only [ih, List.length_cons, List.length_append]
    omega

end Quiet

/-- White space ends where nothing of it starts. -/
lemma trivia_eq_zero {language : Language} {c : Char} (hblank : isBlank c = false) (hc : c ≠ '\\')
    (hcomment : c ≠ '#' ∧ c ≠ '/') (t : Text) : trivia language (c :: t) = (0, false) := by
  rw [trivia]
  simp [hblank, hc, commentTail?_eq_none hcomment]

/-! ## Comments

`hasHostComment` looks for the marks of a comment anywhere in a text, so it is a rougher test than
scanning.  What it denies of a text it denies of every part, which is why a part that a scan stepped
over as a comment cannot hide in a text that it clears.
-/

/-- A part of a text without comments has none. -/
lemma hasHostComment_of_part {language : Language} {s t : Text} (h : s <:+: t)
    (ht : hasHostComment language t = false) : hasHostComment language s = false := by
  have hpart : ∀ {opener : Text}, contains opener t = false → contains opener s = false := by
    intro opener
    simp only [← Bool.not_eq_true, contains_iff]
    exact fun hno hs => hno (hs.trans h)
  cases language with
  | java =>
    simp only [hasHostComment, Bool.or_eq_false_iff] at ht ⊢
    exact ⟨hpart ht.1, hpart ht.2⟩
  | kotlin =>
    simp only [hasHostComment, Bool.or_eq_false_iff] at ht ⊢
    exact ⟨hpart ht.1, hpart ht.2⟩
  | python => exact hpart ht

/-- Java and Kotlin comments start with a slash. -/
lemma commentTail?_slash {language : Language} (hlanguage : language ≠ .python) {c : Char}
    {t : Text} {k : Nat} (h : commentTail? language c t = some k) :
    c = '/' ∧ ((∃ u, t = '/' :: u ∧ k = lineLength t) ∨
      ∃ u, t = '*' :: u ∧ k = blockLength (language == .kotlin) 0 (c :: t) - 1) := by
  unfold commentTail? at h
  split at h
  · exact absurd rfl hlanguage
  all_goals
    split at h
    · rename_i hc
      split at h
      · cases h
        exact ⟨hc, .inl ⟨_, rfl, rfl⟩⟩
      · cases h
        exact ⟨hc, .inr ⟨_, rfl, rfl⟩⟩
      · cases h
    · cases h

/-- Where a comment is stepped over, a comment is found.  The search for comments is coarser than
the scan: it looks for an opener anywhere, and so it finds those that the scan does. -/
lemma hasHostComment_of_commentTail? {language : Language} {c : Char} {t : Text} {k : Nat}
    (h : commentTail? language c t = some k) :
    hasHostComment language ((c :: t).take (k + 1)) = true := by
  by_cases hlanguage : language = .python
  · subst hlanguage
    simp only [commentTail?] at h
    split at h
    · rename_i hc
      subst hc
      rw [hasHostComment, contains_iff]
      exact ⟨[], t.take k, rfl⟩
    · cases h
  · have hfound : (contains "//" ((c :: t).take (k + 1)) ||
        contains "/*" ((c :: t).take (k + 1))) = true := by
      rw [Bool.or_eq_true, contains_iff, contains_iff]
      obtain ⟨rfl, ⟨u, rfl, rfl⟩ | ⟨u, rfl, rfl⟩⟩ := commentTail?_slash hlanguage h
      · have hlength : lineLength ('/' :: u) = lineLength u + 1 := by simp [lineLength]
        exact .inl ⟨[], u.take (lineLength u), by simp [hlength]⟩
      · refine .inr ⟨[], u.take (blockLength (language == .kotlin) 1 u), ?_⟩
        rw [blockLength]
        simp only [true_or, and_self, if_true, Nat.zero_add]
        have hlength : 2 + blockLength (language == .kotlin) 1 u - 1 + 1 =
            blockLength (language == .kotlin) 1 u + 1 + 1 := by omega
        rw [hlength]
        rfl
    cases language with
    | java => exact hfound
    | kotlin => exact hfound
    | python => exact absurd rfl hlanguage

/-- White space that is passed over is quiet if it holds no comment.  The induction is on the text,
and a comment that was passed would be found in it. -/
lemma quiet_take_trivia {language : Language} (t : Text)
    (h : hasHostComment language (t.take (trivia language t).1) = false) :
    Quiet language (t.take (trivia language t).1) := by
  induction hn : t.length using Nat.strongRecOn generalizing t with
  | ind n ih =>
    subst hn
    match t with
    | [] =>
      rw [List.take_nil]
      exact .nil
    | c :: t =>
      rw [trivia] at h ⊢
      split_ifs at h ⊢ with hblank hcontinued
      · simp only [List.take_succ_cons] at h ⊢
        exact .blank hblank (ih t.length (by simp) t
          (hasHostComment_of_part ⟨[c], [], by simp⟩ h) rfl)
      · split at h
        · exact .nil
        · rename_i k hbreak
          obtain ⟨rfl, hlanguage⟩ := hcontinued
          obtain ⟨eol, u, rfl, heol, rfl⟩ : ∃ eol u, t = eol ++ u ∧
              (eol = ['\n'] ∨ eol = ['\r', '\n']) ∧ eol.length = k := by
            unfold lineBreakLength? at hbreak
            split at hbreak
            · rename_i u
              exact ⟨['\n'], u, rfl, .inl rfl, Option.some.inj hbreak⟩
            · rename_i u
              exact ⟨['\r', '\n'], u, rfl, .inr rfl, Option.some.inj hbreak⟩
            · simp at hbreak
          have htake : ∀ m, ('\\' :: (eol ++ u)).take (m + eol.length + 1) =
              '\\' :: (eol ++ u.take m) := fun m => by
            rw [List.take_succ_cons, List.take_append, List.take_of_length_le (by omega),
              Nat.add_sub_cancel]
          simp only [List.drop_left, htake] at h ⊢
          refine .continued hlanguage heol (ih u.length ?_ u
            (hasHostComment_of_part ⟨'\\' :: eol, [], by simp⟩ h) rfl)
          simp only [List.length_cons, List.length_append]
          omega
      · split at h
        · exact .nil
        · rename_i k hcomment
          have hopener := hasHostComment_of_part (t := (c :: t).take
              ((trivia language (t.drop k)).1 + k + 1)) (s := (c :: t).take (k + 1)) ?_ h
          · rw [hasHostComment_of_commentTail? hcomment] at hopener
            exact absurd hopener (by simp)
          · refine (List.IsPrefix.isInfix ?_)
            exact List.take_prefix_take_left (by omega)

/-! ## Connections -/

/-- What joins two fragments: a plus sign, or in Python nothing but white space. -/
inductive Joins (language : Language) : Text → Prop
  | plus {s t : Text} (hs : Quiet language s) (ht : Quiet language t) :
      Joins language (s ++ '+' :: t)
  | side {s : Text} (hlanguage : language = .python) (hs : Quiet language s) : Joins language s

lemma Joins.isIdle {language : Language} {s : Text} (h : Joins language s) :
    ∀ c ∈ s, isIdle c = true := by
  cases h with
  | plus hs ht =>
    intro c hc
    rcases List.mem_append.1 hc with hc | hc
    · exact hs.isIdle c hc
    · rcases List.mem_cons.1 hc with rfl | hc
      · decide
      · exact ht.isIdle c hc
  | side _ hs => exact hs.isIdle

namespace Cursor

/-- No word goes on at the place, so that letters in front of a quote are the start of a string. -/
def IsFree (c : Cursor) : Prop := c.before.any isHostWordChar = false

/-- A place behind a character that belongs to no word is free. -/
lemma isFree_advance {c : Cursor} {s t : Text} (hrest : c.rest = s ++ t) (hc : c.IsFree)
    (hs : ∀ x ∈ s.getLast?, isHostWordChar x = false) : (c.advance s.length).IsFree := by
  have htake : c.rest.take s.length = s := by rw [hrest]; exact List.take_left
  rcases List.eq_nil_or_concat s with rfl | ⟨s, x, rfl⟩
  · exact hc
  · have hx : isHostWordChar x = false := hs x (by simp)
    rw [List.concat_eq_append] at htake ⊢
    rw [IsFree, before, advance, htake]
    simpa using hx

lemma skipTrivia_eq {c : Cursor} {language : Language} {s t : Text} (hrest : c.rest = s ++ t)
    (hs : Quiet language s) (ht : (trivia language t).1 = 0) :
    c.skipTrivia language = c.advance s.length := by
  rw [skipTrivia, hrest, hs.trivia_append, ht, Nat.add_zero]

end Cursor

/-- Nothing is passed over in front of a string. -/
lemma trivia_of_quoted? {language : Language} {before : Option Char} {t : Text} {q : Quoted}
    (h : quoted? language before t = some (some q)) : (trivia language t).1 = 0 := by
  match t with
  | [] => rw [trivia]
  | c :: t =>
    have hc : c ∈ "rRbBuUfF\"'".toList := by
      by_contra hc
      rw [quoted?_eq_none hc] at h
      cases h
    have hall : "rRbBuUfF\"'".toList.all
        (fun c => !isBlank c && (c != '\\' && (c != '#' && c != '/'))) = true := by decide
    have hidle : isBlank c = false ∧ c ≠ '\\' ∧ c ≠ '#' ∧ c ≠ '/' := by
      simpa using List.all_eq_true.1 hall c hc
    obtain ⟨hblank, hslash, hcomment⟩ := hidle
    rw [trivia_eq_zero hblank hslash hcomment]

/-- **A source that connects two fragments** and holds no comment is a connection.  The text runs
from behind one fragment to the front of the next, whatever was passed in between. -/
lemma joins_of_joinerAt {language : Language} {continued : Bool} {c following : Cursor}
    {joiner : Joiner}
    (h : joinerAt language continued (c.skipTrivia language) = some (joiner, following))
    {s : Text} (hs : c.rest = s ++ following.rest) (hcomment : hasHostComment language s = false) :
    Joins language s := by
  have hsplit : ∀ d : Cursor,
      d.rest = d.rest.take (trivia language d.rest).1 ++ (d.skipTrivia language).rest :=
    fun d => (List.take_append_drop _ _).symm
  unfold joinerAt at h
  split at h
  · rename_i hplus
    simp only [Option.some.injEq, Prod.mk.injEq] at h
    obtain ⟨-, rfl⟩ := h
    obtain ⟨u, hu⟩ : ∃ u, (c.skipTrivia language).rest = '+' :: u := by
      cases hrest : (c.skipTrivia language).rest with
      | nil => simp [hrest] at hplus
      | cons x u =>
        rw [hrest] at hplus
        exact ⟨u, by simpa using hplus⟩
    have hnext : ((c.skipTrivia language).advance 1).rest = u := by simp [Cursor.advance, hu]
    have hfollowing := hsplit ((c.skipTrivia language).advance 1)
    rw [hnext] at hfollowing
    have hwhole := hs.symm.trans (hsplit c)
    rw [hu] at hwhole
    nth_rewrite 1 [hfollowing] at hwhole
    rw [← List.cons_append, ← List.append_assoc] at hwhole
    rw [List.append_cancel_right hwhole] at hcomment ⊢
    exact .plus (quiet_take_trivia _ (hasHostComment_of_part ⟨[], _, rfl⟩ hcomment))
      (quiet_take_trivia _ (hasHostComment_of_part
        ⟨c.rest.take (trivia language c.rest).1 ++ ['+'], [], by simp⟩ hcomment))
  · split at h
    · rename_i hpython
      simp only [Option.some.injEq, Prod.mk.injEq] at h
      obtain ⟨-, rfl⟩ := h
      rw [List.append_cancel_right (hs.symm.trans (hsplit c))] at hcomment ⊢
      exact .side hpython.1 (quiet_take_trivia _ hcomment)
    · cases h

/-- **A connection in front of a string** is taken for one.  The string has to be one behind
whatever stands in front of it that is no word, since a plus sign or a blank comes to stand
there. -/
lemma joinerAt_of_joins {language : Language} {c : Cursor} {s t : Text} {q : Quoted}
    (hs : Joins language s) (hrest : c.rest = s ++ t) (hfree : c.IsFree)
    (hq : ∀ before : Option Char, before.any isHostWordChar = false →
      quoted? language before t = some (some q)) (continued : Bool) :
    (c.skipTrivia language).offset ≤ c.offset + bytes s ∧
      ∃ joiner, joinerAt language continued (c.skipTrivia language) =
        some (joiner, c.advance s.length) := by
  have hstring : (trivia language t).1 = 0 := trivia_of_quoted? (hq none rfl)
  cases hs with
  | @plus s₁ s₂ hs₁ hs₂ =>
    rw [List.append_assoc, List.cons_append] at hrest
    have hplus : (trivia language ('+' :: (s₂ ++ t))).1 = 0 := by
      rw [trivia_eq_zero (by decide) (by decide) (by decide)]
    have hskip := Cursor.skipTrivia_eq hrest hs₁ hplus
    obtain ⟨hnext, hoffset⟩ := Cursor.advance_append hrest
    have hbehind : ((c.advance s₁.length).advance 1).rest = s₂ ++ t := by
      rw [Cursor.advance, hnext]
      rfl
    refine ⟨?_, .concatenation, ?_⟩
    · rw [hskip, hoffset, bytes_append]
      omega
    · rw [joinerAt, if_pos (by rw [hskip, hnext]; rfl), hskip,
        Cursor.skipTrivia_eq hbehind hs₂ hstring, Cursor.advance_advance, Cursor.advance_advance]
      simp only [List.length_append, List.length_cons]
      congr 3
      omega
  | side hlanguage hs =>
    have hskip := Cursor.skipTrivia_eq hrest hs hstring
    obtain ⟨hnext, hoffset⟩ := Cursor.advance_append hrest
    have hfree' : (c.advance s.length).IsFree := Cursor.isFree_advance hrest hfree fun x hx =>
      not_isHostWordChar_of_isIdle (hs.isIdle x (List.mem_of_getLast? hx))
    have hquoted := hq _ hfree'
    refine ⟨by rw [hskip, hoffset], if continued then .lineContinuation else .juxtaposition, ?_⟩
    have hhead : t.head? ≠ some '+' := by
      intro hhead
      obtain ⟨u, rfl⟩ : ∃ u, t = '+' :: u := by
        cases t with
        | nil => simp at hhead
        | cons x u => exact ⟨u, by simpa using hhead⟩
      rw [quoted?_eq_none (by decide)] at hquoted
      cases hquoted
    rw [joinerAt, hskip, hnext, if_neg hhead, if_pos ⟨hlanguage, by rw [hquoted]; rfl⟩]

end SqlInlay.Host
