import SqlInlay.Proofs.Host.Strides

/-!
# The places that scans meet

A source is read by several scans.  One goes over the whole of it and looks for the signs of
annotations; another starts behind a name and looks for the commas and the parenthesis that end its
arguments; a third reads the strings of one argument, with what joins them.  None of them knows of
the others, and each decides for itself what is a string, what is a comment and what is code.  This
module says that they agree.

**Places.**  All scans go on in the same strides, so it is enough to know where strides can lead.

* `Cursor.Meets` — a scan that stands at one place comes to stand at another.
* `Cursor.Meets.total` — of two places that a scan meets, the one is met from the other, whatever
  scan it is.  So places that are met are in order, and the one with the smaller offset comes first
  (`Cursor.Meets.of_offset_le`).
* `Cursor.IsApart` — no name leads up to the place.  Where one does, the letters in front of a quote
  may belong to a name or to a string, and two scans could disagree.

**Arguments.**  Each argument stands between two places that the scan meets, behind a comma or the
opening parenthesis and in front of a comma or the closing one (`argumentsFrom_meets`).

* `ArgumentAt` — how an argument is read between two such places: with a name and a value, or with a
  value alone.  `argumentBetween_cases` says that it is read so if there is one.
* `ends_of_fragmentsFrom` — what one scan takes for the end of an argument, the scan of the strings
  in it comes upon as well: it stands right behind them, white space and comments aside.

**Literals with their surroundings.**  `Located` lists the literals of a source with what follows
each: white space and comments, and then the comma or the parenthesis that ends the argument
(`located_locateFrom`).  This is all that has to be known of a source in order to rewrite its
literals, however many there are (`exists_swapped`).
-/

namespace SqlInlay.Host

open SqlInlay.Text

/-! ## Places that are met

A place is met if the strides of a scan lead to it.  Comments, strings and character literals are
passed in one stride, so no place inside of them is ever met; everything else is passed character by
character.
-/

namespace Cursor

/-- A scan at the one place comes to stand at the other.  So what stands between is a row of whole
strides, and the second place lies in no comment and no literal that the first one is not in. -/
def Meets (language : Language) (c d : Cursor) : Prop :=
  c.Reaches d ∧ Strides language c.rest d.rest

namespace Meets

variable {language : Language} {c d e : Cursor}

lemma refl (c : Cursor) : c.Meets language c := ⟨.refl c, .refl _⟩

lemma trans (h : c.Meets language d) (h' : d.Meets language e) : c.Meets language e :=
  ⟨h.1.trans h'.1, h.2.trans h'.2⟩

/-- Places behind a third with the same text left are the same. -/
lemma eq_of_rest (hd : c.Reaches d) (he : c.Reaches e) (h : d.rest = e.rest) : d = e := by
  obtain ⟨s, hs, hs'⟩ := hd
  obtain ⟨t, ht, ht'⟩ := he
  rw [h] at hs
  obtain rfl := List.append_cancel_right (hs.symm.trans ht)
  cases d
  cases e
  simp_all

/-- What the strides go to is met. -/
lemma of_strides (hd : c.Reaches d) (he : c.Reaches e) (h : Strides language d.rest e.rest) :
    d.Meets language e := by
  refine ⟨?_, h⟩
  obtain ⟨m, hm⟩ := h.suffix
  obtain ⟨s, hs, hs'⟩ := hd
  obtain ⟨t, ht, ht'⟩ := he
  rw [← hm, ← List.append_assoc] at hs
  obtain rfl := List.append_cancel_right (hs.symm.trans ht)
  exact ⟨m, hm.symm, by rw [ht', hs', List.reverse_append, List.append_assoc]⟩

/-- **Of two places that a scan meets**, the one is met from the other.  Strides leave no choice, so
what lies further on is reached through what lies in front of it. -/
lemma total (h : c.Meets language d) (h' : c.Meets language e) :
    d.Meets language e ∨ e.Meets language d :=
  (h.2.total h'.2).imp (of_strides h.1 h'.1) (of_strides h'.1 h.1)

/-- The place with the smaller offset is met first. -/
lemma of_offset_le (h : c.Meets language d) (h' : c.Meets language e) (hle : d.offset ≤ e.offset) :
    d.Meets language e := by
  rcases h.total h' with hde | hed
  · exact hde
  · obtain ⟨s, hs, hoffset⟩ := hed.1.exists_between
    have hnil : s = [] := bytes_eq_zero.1 (by omega)
    rw [hnil, List.nil_append] at hs
    rw [eq_of_rest h.1 h'.1 hs.symm]
    exact .refl e

end Meets

variable {language : Language} {c d : Cursor}

lemma meets_advance {n : Nat} (h : Strides language c.rest (c.rest.drop n)) :
    c.Meets language (c.advance n) := ⟨c.reaches_advance n, h⟩

lemma meets_skipTrivia (language : Language) (c : Cursor) :
    c.Meets language (c.skipTrivia language) := meets_advance (strides_trivia language c.rest)

lemma meets_sealed {x : Char} {t : Text} {n : Nat} (hrest : c.rest = x :: t)
    (h : sealedTail? language c.before x t = some n) : c.Meets language (c.advance (n + 1)) := by
  refine meets_advance ?_
  rw [hrest]
  exact strides_sealed h

lemma meets_one {x : Char} {t : Text} (hrest : c.rest = x :: t)
    (h : sealedTail? language c.before x t = none) : c.Meets language (c.advance 1) := by
  refine meets_advance ?_
  rw [hrest]
  exact strides_one h

lemma meets_string {q : Quoted} (h : quoted? language c.before c.rest = some (some q)) :
    c.Meets language (c.advance q.source.length) := meets_advance (strides_string h)

/-- Plain characters are passed one by one. -/
lemma meets_plain {s t : Text} (hrest : c.rest = s ++ t) (hs : ∀ x ∈ s, x ∉ "\"'#/".toList) :
    c.Meets language (c.advance s.length) := by
  refine meets_advance ?_
  rw [hrest, List.drop_left]
  exact strides_append hs t

/-- No name leads up to the place.  A name that starts there starts with its first letter. -/
def IsApart (c : Cursor) : Prop := c.before.any leadsOn = false

lemma IsApart.isFree (h : c.IsApart) : c.IsFree := by
  rw [IsApart] at h
  rw [IsFree]
  cases hbefore : c.before with
  | none => rfl
  | some x =>
    rw [hbefore] at h
    simp only [Option.any_some, leadsOn, Bool.or_eq_false_iff] at h ⊢
    exact h.1.1

/-- No name leads up to a place behind a character that leads on to none. -/
lemma isApart_advance {s t : Text} (hrest : c.rest = s ++ t) (hc : c.IsApart)
    (hs : ∀ x ∈ s.getLast?, leadsOn x = false) : (c.advance s.length).IsApart := by
  have htake : c.rest.take s.length = s := by rw [hrest]; exact List.take_left
  rcases List.eq_nil_or_concat s with rfl | ⟨s, x, rfl⟩
  · exact hc
  · have hx : leadsOn x = false := hs x (by simp)
    rw [List.concat_eq_append] at htake ⊢
    rw [IsApart, before, advance, htake]
    simpa using hx

lemma isApart_advance_one {x : Char} {t : Text} (hrest : c.rest = x :: t)
    (hx : leadsOn x = false) : (c.advance 1).IsApart := by
  rw [IsApart, before, advance, hrest]
  exact hx

/-- No name leads up to a place behind white space and comments. -/
lemma isApart_skipTrivia (h : c.IsApart) (hrest : (c.skipTrivia language).rest ≠ []) :
    (c.skipTrivia language).IsApart := by
  have hsplit : c.rest = c.rest.take (trivia language c.rest).1 ++
      c.rest.drop (trivia language c.rest).1 := (List.take_append_drop _ _).symm
  have hapart := isApart_advance hsplit h (not_leadsOn_of_trivia hrest)
  have hadvance : c.advance (c.rest.take (trivia language c.rest).1).length =
      c.skipTrivia language := by
    rw [skipTrivia, List.length_take]
    rcases Nat.le_total (trivia language c.rest).1 c.rest.length with hle | hle
    · rw [min_eq_left hle]
    · exact absurd (List.drop_eq_nil_of_le hle) hrest
  rwa [hadvance] at hapart

/-- An argument ends at the place: a comma or the closing parenthesis stands there. -/
def EndsArgument (c : Cursor) : Prop := ∃ x u, c.rest = x :: u ∧ (x = ',' ∨ x = ')')

/-- What lies between a place where an argument ends and a place that is met behind it. -/
lemma EndsArgument.exists_behind {d : Cursor} (h : (c.skipTrivia language).EndsArgument)
    (hd : ((c.skipTrivia language).advance 1).Meets language d) :
    ∃ blanks x between, (x = ',' ∨ x = ')') ∧ c.rest = blanks ++ x :: (between ++ d.rest) ∧
      (trivia language c.rest).1 = blanks.length ∧
      Strides language (between ++ d.rest) d.rest ∧ c.Meets language d := by
  obtain ⟨x, u, hrest, hx⟩ := h
  have hstep : (c.skipTrivia language).Meets language ((c.skipTrivia language).advance 1) :=
    meets_plain (s := [x]) hrest (by rcases hx with rfl | rfl <;> simp)
  obtain ⟨between, hbetween, -⟩ := hd.1.exists_between
  have hinside : ((c.skipTrivia language).advance 1).rest = u := by
    rw [advance, hrest]
    rfl
  rw [hinside] at hbetween
  have hstrides := hd.2
  rw [hinside, hbetween] at hstrides
  refine ⟨c.rest.take (trivia language c.rest).1, x, between, hx, ?_, ?_, hstrides,
    (c.meets_skipTrivia language).trans (hstep.trans hd)⟩
  · rw [← hbetween, ← hrest]
    exact (List.take_append_drop _ _).symm
  · refine (List.length_take_of_le (Nat.le_of_not_lt fun hlt => ?_)).symm
    have hnil : (c.skipTrivia language).rest = [] := List.drop_eq_nil_of_le hlt.le
    rw [hnil] at hrest
    cases hrest

/-- What lies in front of a place that no name leads up to. -/
lemma IsApart.exists_in_front (hd : d.IsApart) (h : c.Meets language d) (hlt : c.offset < d.offset) :
    ∃ gap, c.rest = gap ++ d.rest ∧ d.offset = c.offset + bytes gap ∧
      Strides language (gap ++ d.rest) d.rest ∧ ∃ y ∈ gap.getLast?, leadsOn y = false := by
  obtain ⟨gap, hgap, hpassed⟩ := id h.1
  have hoffset : d.offset = c.offset + bytes gap := by
    rw [offset, hpassed, bytes_append, bytes_reverse, offset, Nat.add_comm]
  refine ⟨gap, hgap, hoffset, hgap ▸ h.2, ?_⟩
  rcases List.eq_nil_or_concat gap with rfl | ⟨s, y, rfl⟩
  · rw [bytes_nil] at hoffset
    omega
  · refine ⟨y, by simp, ?_⟩
    rw [IsApart, before, hpassed] at hd
    simpa using hd

end Cursor

/-! ## Arguments

An argument is cut off where its end was found, without a look at what is in it.  Reading its
strings afterwards starts over from its first character.  The lemmas of this section lead from the
one to the other: from the place where the argument starts, both scans come to the place where it
ends.
-/

/-- Fragments are met in strides. -/
lemma FragmentsAt.meets {buffer : Nat} {language : Language} {c d : Cursor}
    {fragments : List Fragment} (h : FragmentsAt buffer language c fragments d) :
    c.Meets language d := by
  induction h with
  | last hq => exact Cursor.meets_string hq
  | @cons c following stop q continued joiner fragments hq hplain hjoiner h ih =>
    refine ((Cursor.meets_string hq).trans (Cursor.meets_skipTrivia language _)).trans (.trans ?_ ih)
    generalize (c.advance q.source.length).skipTrivia language = next at hjoiner
    unfold joinerAt at hjoiner
    split at hjoiner
    · rename_i hplus
      obtain ⟨u, hu⟩ : ∃ u, next.rest = ['+'] ++ u := by
        cases hrest : next.rest with
        | nil => simp [hrest] at hplus
        | cons x u => exact ⟨u, by simpa [hrest] using hplus⟩
      simp only [Option.some.injEq, Prod.mk.injEq] at hjoiner
      rw [← hjoiner.2]
      exact (Cursor.meets_plain hu (by simp)).trans (Cursor.meets_skipTrivia language _)
    · split at hjoiner
      · simp only [Option.some.injEq, Prod.mk.injEq] at hjoiner
        rw [← hjoiner.2]
        exact .refl next
      · cases hjoiner

lemma FragmentsAt.offset_lt {buffer : Nat} {language : Language} {c d : Cursor}
    {fragments : List Fragment} (h : FragmentsAt buffer language c fragments d) :
    c.offset < d.offset := by
  have hlt : ∀ {c : Cursor} {q : Quoted}, quoted? language c.before c.rest = some (some q) →
      c.offset < (c.advance q.source.length).offset := by
    intro c q hq
    rw [FragmentsAt.offset_behind buffer hq]
    have hpos := bytes_pos (List.ne_nil_of_length_pos (length_source_pos hq))
    simp only [fragmentAt]
    omega
  cases h with
  | last hq => exact hlt hq
  | cons hq hplain hjoiner h =>
    have hskip := ((Cursor.reaches_skipTrivia _ language).trans (joinerAt_reaches hjoiner)).offset_le
    exact (hlt hq).trans_le (hskip.trans h.reaches.offset_le)

/-- Fragments end in a quote, whatever their quotes are.  So the character in front of what stands
behind them is known, and no letters of a string can be in front of it. -/
lemma FragmentsAt.exists_quote {buffer : Nat} {language : Language} {c d : Cursor}
    {fragments : List Fragment} (h : FragmentsAt buffer language c fragments d) :
    ∃ e y, c.Reaches e ∧ e.rest = y :: d.rest ∧ e.offset + 1 = d.offset ∧
      (y = '"' ∨ y = '\'') := by
  have hstring : ∀ {c : Cursor} {q : Quoted}, quoted? language c.before c.rest = some (some q) →
      ∃ e y, c.Reaches e ∧ e.rest = y :: (c.advance q.source.length).rest ∧
        e.offset + 1 = (c.advance q.source.length).offset ∧ (y = '"' ∨ y = '\'') := by
    intro c q hq
    obtain ⟨rest, hrest⟩ := prefix_of_quoted? hq
    obtain ⟨-, quote, more, hquote, hdelimiter, hall⟩ := quoted?_parts hq
    obtain ⟨s, y, hs⟩ : ∃ s y, q.delimiter = s ++ [y] :=
      ⟨_, _, (List.dropLast_append_getLast (by simp [hdelimiter])).symm⟩
    obtain rfl : y = quote := hall y (by simp [hs])
    have hsource : q.source = (q.marker ++ q.delimiter ++ q.content ++ s) ++ [y] := by
      rw [Quoted.source]
      conv_lhs => rw [hs]
      simp [hs]
    generalize q.marker ++ q.delimiter ++ q.content ++ s = front at hsource
    rw [hsource] at hrest ⊢
    obtain ⟨hend, hoffset⟩ := Cursor.advance_append hrest.symm
    have hsplit : c.rest = front ++ (y :: rest) := by rw [← hrest]; simp
    obtain ⟨hquote', hoffset'⟩ := Cursor.advance_append hsplit
    refine ⟨c.advance front.length, y, c.reaches_advance _, by rw [hquote', hend], ?_, hquote⟩
    have hone : bytes [y] = 1 := by rcases hquote with rfl | rfl <;> decide
    rw [hoffset, hoffset', bytes_append, hone, Nat.add_assoc]
  induction h with
  | last hq => exact hstring hq
  | @cons c following stop q continued joiner fragments hq hplain hjoiner h ih =>
    obtain ⟨e, y, he, hrest⟩ := ih
    exact ⟨e, y, ((Cursor.reaches_advance ..).trans (Cursor.reaches_skipTrivia _ language)).trans
      ((joinerAt_reaches hjoiner).trans he), hrest⟩

/-- Fragments that end where nothing more is read are what is read, but for the names of joiners in
Python. -/
lemma FragmentsAt.exists_fragmentsFrom {buffer : Nat} {language : Language} {stop : Nat}
    {c d : Cursor} {fragments : List Fragment} (h : FragmentsAt buffer language c fragments d)
    (hle : d.offset ≤ stop) (hstop : stop ≤ (d.skipTrivia language).offset) :
    ∃ fs, fragmentsFrom buffer language stop c = .ok fs ∧
      (language ≠ .python → fs = fragments) := by
  induction h with
  | last hq hplain =>
    rw [fragmentsFrom_string hq hplain hle]
    exact ⟨_, if_pos hstop, fun _ => rfl⟩
  | @cons c following d q continued joiner fragments hq hplain hjoiner h ih =>
    obtain ⟨fs, hfs, hsame⟩ := ih hle hstop
    obtain ⟨joiner', hjoiner'⟩ := joinerAt_continued hjoiner
      (trivia language (c.advance q.source.length).rest).2
    have hnext := (joinerAt_reaches hjoiner).offset_le
    have hskip := ((c.advance q.source.length).reaches_skipTrivia language).offset_le
    have hlt := h.offset_lt
    rw [fragmentsFrom_string hq hplain (by omega)]
    simp only
    rw [if_neg (by omega), hjoiner']
    simp only [hfs]
    refine ⟨_, rfl, fun hlanguage => ?_⟩
    simp only [joinerAt, hlanguage, false_and, if_false] at hjoiner hjoiner'
    obtain ⟨rfl, -⟩ := Prod.mk.inj (Option.some.inj (hjoiner.symm.trans hjoiner'))
    rw [hsame hlanguage]

/-- **Each argument** stands between two places that the scan meets: it starts behind a comma or
where the list starts, and ends where an argument ends. -/
lemma argumentsFrom_meets {language : Language} {depth : Nat} {start c stop : Cursor}
    {arguments : List Argument} (hc : start.Meets language c)
    (h : argumentsFrom language depth start c = some (arguments, stop)) :
    c.Meets language stop ∧
      ∀ a ∈ arguments, ∃ s d, argumentBetween language s d.offset = some a ∧
        start.Meets language s ∧ (s = start ∨ s.before = some ',') ∧ s.Meets language d ∧
        d.EndsArgument ∧ (d.advance 1).Meets language stop := by
  fun_induction argumentsFrom language depth start c generalizing arguments with
  | case1 => simp at h
  | case2 depth start c x t hrest n hsealed ih =>
    have hstep := Cursor.meets_sealed hrest hsealed
    obtain ⟨hstop, hall⟩ := ih (hc.trans hstep) h
    exact ⟨hstep.trans hstop, hall⟩
  | case3 depth start c x t hrest hsealed _ ih =>
    have hstep := Cursor.meets_one hrest hsealed
    obtain ⟨hstop, hall⟩ := ih (hc.trans hstep) h
    exact ⟨hstep.trans hstop, hall⟩
  | case4 depth start c x t hrest hsealed _ _ ih =>
    have hstep := Cursor.meets_one hrest hsealed
    obtain ⟨hstop, hall⟩ := ih (hc.trans hstep) h
    exact ⟨hstep.trans hstop, hall⟩
  | case5 depth start c t hrest hsealed =>
    have hstep := Cursor.meets_one hrest hsealed
    simp only [Option.some.injEq, Prod.mk.injEq] at h
    obtain ⟨rfl, rfl⟩ := h
    refine ⟨hstep, fun a ha => ⟨start, c, by simpa using ha, .refl _, .inl rfl, hc,
      ⟨_, t, hrest, .inr rfl⟩, .refl _⟩⟩
  | case6 depth start c x t hrest hsealed _ _ _ hcomma ih =>
    have hstep := Cursor.meets_one hrest hsealed
    obtain ⟨⟨rest, stop'⟩, hbehind, heq⟩ := Option.map_eq_some_iff.1 h
    simp only [Prod.mk.injEq] at heq
    obtain ⟨rfl, rfl⟩ := heq
    obtain ⟨hstop, hall⟩ := ih (.refl _) hbehind
    refine ⟨hstep.trans hstop, fun a ha => ?_⟩
    rcases List.mem_append.1 ha with ha | ha
    · exact ⟨start, c, by simpa using ha, .refl _, .inl rfl, hc, ⟨x, t, hrest, .inl hcomma.1⟩,
        hstop⟩
    · obtain ⟨s, d, hs, hstart, hbefore, hd⟩ := hall a ha
      refine ⟨s, d, hs, (hc.trans hstep).trans hstart, .inr ?_, hd⟩
      rcases hbefore with rfl | hbefore
      · rw [Cursor.before, Cursor.advance, hrest, hcomma.1]
        rfl
      · exact hbefore
  | case7 depth start c x t hrest hsealed =>
    rename_i ih
    have hstep := Cursor.meets_one hrest hsealed
    obtain ⟨hstop, hall⟩ := ih (hc.trans hstep) h
    exact ⟨hstep.trans hstop, hall⟩

lemma not_mem_of_isIdent {c : Char} (h : isIdentStart c = true ∨ isIdentChar c = true) :
    c ∉ "\"'#/".toList := by
  intro hmem
  simp only [String.reduceToList, List.mem_cons, List.not_mem_nil, or_false] at hmem
  rcases hmem with rfl | rfl | rfl | rfl <;> revert h <;> decide

/-- A plain identifier. -/
def IsIdent (name : Text) : Prop :=
  ∃ x s, name = x :: s ∧ isIdentStart x = true ∧ ∀ y ∈ s, isIdentChar y = true

lemma IsIdent.forall (P : Char → Prop) {name : Text} (h : IsIdent name)
    (hP : ∀ x, isIdentStart x = true ∨ isIdentChar x = true → P x) : ∀ x ∈ name, P x := by
  obtain ⟨x, s, rfl, hx, hs⟩ := h
  exact List.forall_mem_cons.2 ⟨hP x (.inl hx), fun y hy => hP y (.inr (hs y hy))⟩

lemma identLength_append {name t : Text} (h : IsIdent name)
    (ht : ∀ x ∈ t.head?, isIdentChar x = false) : identLength (name ++ t) = name.length := by
  obtain ⟨x, s, rfl, hx, hs⟩ := h
  have hstop : t.takeWhile isIdentChar = [] := by
    cases t with
    | nil => rfl
    | cons y t => simp [ht y rfl]
  rw [List.cons_append, identLength, if_pos hx, List.takeWhile_append_of_pos hs, hstop,
    List.append_nil, List.length_cons, Nat.add_comm]

lemma exists_of_identLength {t : Text} (h : identLength t ≠ 0) :
    ∃ name u, t = name ++ u ∧ identLength t = name.length ∧ IsIdent name := by
  cases t with
  | nil => exact absurd rfl h
  | cons x t =>
    rw [identLength] at h ⊢
    split at h
    · rename_i hx
      rw [if_pos hx, Nat.add_comm]
      refine ⟨x :: t.takeWhile isIdentChar, t.dropWhile isIdentChar, ?_, rfl,
        ⟨x, _, rfl, hx, fun y => List.mem_takeWhile_imp⟩⟩
      rw [List.cons_append, List.takeWhile_append_dropWhile]
    · exact absurd rfl h

lemma isIdent_of_mem_take {t : Text} {c : Char} (h : c ∈ t.take (identLength t)) :
    isIdentStart c = true ∨ isIdentChar c = true := by
  by_cases hzero : identLength t = 0
  · simp [hzero] at h
  · obtain ⟨name, u, rfl, hlength, hident⟩ := exists_of_identLength hzero
    rw [hlength, List.take_left] at h
    exact hident.forall _ (fun _ hx => hx) c h

/-- Names consist of the characters of identifiers, and of dots. -/
lemma isIdent_of_mem_take_qualified {t : Text} :
    ∀ c ∈ t.take (qualifiedLength t), c = '.' ∨ isIdentStart c = true ∨ isIdentChar c = true := by
  fun_induction qualifiedLength t with
  | case1 t n u hdot hmore ih =>
    intro c hc
    rw [List.take_add, List.take_add, List.mem_append, List.mem_append] at hc
    have hbehind : t.drop (n + 1) = u := by rw [← List.drop_drop, hdot]; rfl
    rw [hdot, hbehind] at hc
    rcases hc with (hc | hc) | hc
    · exact .inr (isIdent_of_mem_take hc)
    · exact .inl (List.mem_singleton.1 hc)
    · exact ih c hc
  | case2 t => exact fun c hc => .inr (isIdent_of_mem_take hc)
  | case3 t => exact fun c hc => .inr (isIdent_of_mem_take hc)

/-- Names have neither quotes nor anything that opens a comment. -/
lemma not_mem_of_qualifiedLength (t : Text) :
    ∀ c ∈ t.take (qualifiedLength t), c ∉ "\"'#/".toList := by
  intro c hc
  rcases isIdent_of_mem_take_qualified c hc with rfl | hident
  · decide
  · exact not_mem_of_isIdent hident

/-- The sign and the name of an annotation are passed character by character. -/
lemma Cursor.meets_name {language : Language} {c : Cursor} {x : Char} {t : Text}
    (hrest : c.rest = x :: t) (hx : x = '@') :
    c.Meets language (c.advance (qualifiedLength t + 1)) := by
  refine meets_advance ?_
  have hsplit : c.rest = (x :: t.take (qualifiedLength t)) ++ t.drop (qualifiedLength t) := by
    rw [List.cons_append, List.take_append_drop, hrest]
  have hdrop : c.rest.drop (qualifiedLength t + 1) = t.drop (qualifiedLength t) := by
    rw [hrest, List.drop_succ_cons]
  rw [hdrop, hsplit]
  refine strides_append (List.forall_mem_cons.2 ⟨?_, not_mem_of_qualifiedLength t⟩) _
  rw [hx]
  decide

lemma not_isIdentChar_of_isBlank {x : Char} (h : isBlank x = true) : isIdentChar x = false := by
  have hidle := forall_isIdle (p := fun c => !isIdentChar c) (by decide +kernel)
    (isIdle_of_isBlank h)
  simpa using hidle

/-- What stands in front of a named value: an identifier, blanks, and a single equals sign.  A
second one would make a comparison of it. -/
lemma namedArgument?_eq_some_iff {t name : Text} {n : Nat} :
    namedArgument? t = some (name, n) ↔
      ∃ blanks u, t = name ++ (blanks ++ '=' :: u) ∧ n = name.length + blanks.length + 1 ∧
        IsIdent name ∧ (∀ x ∈ blanks, isBlank x = true) ∧ '=' ∉ u.head? := by
  have hdrop : ∀ {name blanks w : Text},
      (name ++ (blanks ++ w)).drop (name.length + blanks.length) = w := by
    intro name blanks w
    rw [← List.drop_drop, List.drop_left, List.drop_left]
  constructor
  · intro h
    unfold namedArgument? at h
    simp only at h
    split at h
    · cases h
    · rename_i hname
      obtain ⟨name', u, rfl, hlength, hident⟩ := exists_of_identLength hname
      obtain ⟨blanks, w, rfl, hspan, hblanks⟩ :
          ∃ blanks w, u = blanks ++ w ∧ u.takeWhile isBlank = blanks ∧
            ∀ x ∈ blanks, isBlank x = true :=
        ⟨_, _, List.takeWhile_append_dropWhile.symm, rfl, fun x => List.mem_takeWhile_imp⟩
      rw [hlength, List.drop_left, hspan, hdrop, List.take_left] at h
      split at h
      · cases h
      · rename_i v hv
        simp only [Option.some.injEq, Prod.mk.injEq] at h
        obtain ⟨rfl, rfl⟩ := h
        refine ⟨blanks, v, rfl, rfl, hident, hblanks, fun hmem => ?_⟩
        obtain ⟨w, rfl⟩ := List.head?_eq_some_iff.1 hmem
        exact hv w rfl
      · cases h
  · rintro ⟨blanks, u, rfl, rfl, hident, hblanks, hu⟩
    have hlength : identLength (name ++ (blanks ++ '=' :: u)) = name.length := by
      refine identLength_append hident fun x hx => ?_
      cases blanks with
      | nil =>
        obtain rfl := Option.some.inj hx
        decide
      | cons y blanks =>
        obtain rfl := Option.some.inj hx
        exact not_isIdentChar_of_isBlank (hblanks _ (List.mem_cons_self ..))
    have hpos : name.length ≠ 0 := by
      obtain ⟨x, s, rfl, -⟩ := hident
      simp
    have hspan : ((blanks ++ '=' :: u).takeWhile isBlank).length = blanks.length := by
      rw [List.takeWhile_append_of_pos hblanks, List.takeWhile_cons_of_neg (by decide),
        List.append_nil]
    simp only [namedArgument?, hlength, List.drop_left, hspan, if_neg hpos, hdrop, List.take_left]
    split
    · rename_i heq
      obtain rfl := (List.cons.inj heq).2
      exact absurd rfl hu
    · rfl
    · rename_i hne
      exact absurd rfl (hne u)

/-- A named argument is one whatever follows the equals sign, a second one apart. -/
lemma exists_of_namedArgument? {t name : Text} {n : Nat} (h : namedArgument? t = some (name, n)) :
    ∃ p u, t = p ++ u ∧ n = p.length ∧ p.getLast? = some '=' ∧
      (∀ x ∈ p, (isIdentStart x = true ∨ isIdentChar x = true) ∨ isBlank x = true ∨ x = '=') ∧
      ∀ u', u'.head? = u.head? → namedArgument? (p ++ u') = some (name, n) := by
  obtain ⟨blanks, u, rfl, rfl, hident, hblanks, hequals⟩ := namedArgument?_eq_some_iff.1 h
  refine ⟨name ++ (blanks ++ ['=']), u, by simp, by simp [Nat.add_assoc], ?_, fun x hx => ?_,
    fun u' hu' => ?_⟩
  · rw [← List.append_assoc, List.getLast?_concat]
  · simp only [List.mem_append, List.mem_singleton] at hx
    rcases hx with hx | hx | hx
    · exact .inl (hident.forall _ (fun _ => id) x hx)
    · exact .inr (.inl (hblanks x hx))
    · exact .inr (.inr hx)
  · exact namedArgument?_eq_some_iff.2 ⟨blanks, u', by simp, rfl, hident, hblanks, hu' ▸ hequals⟩

/-- Nothing in front of a named value opens a literal or a comment. -/
lemma not_mem_of_named {x : Char}
    (h : (isIdentStart x = true ∨ isIdentChar x = true) ∨ isBlank x = true ∨ x = '=') :
    x ∉ "\"'#/".toList := by
  rcases h with h | h | rfl
  · exact not_mem_of_isIdent h
  · have hidle := not_mem_of_isIdle (isIdle_of_isBlank h)
    exact List.notMem_of_subset (by decide) hidle
  · decide

/-- What ends an argument, and blanks in front of it, do not make it a named one.  A name, the
blanks behind it and the equals sign lie in front of the comma or the parenthesis, since none of
their characters is one of these. -/
lemma namedArgument?_append {s blanks u : Text} {x : Char} (hx : x = ',' ∨ x = ')')
    (hblanks : ∀ y ∈ blanks, isBlank y = true) :
    namedArgument? (s ++ (blanks ++ x :: u)) = namedArgument? s := by
  have hstop : isBlank x = false ∧ isIdentChar x = false ∧ isIdentStart x = false ∧ x ≠ '=' := by
    rcases hx with rfl | rfl <;> decide
  refine Option.ext fun ⟨name, n⟩ => ?_
  rw [namedArgument?_eq_some_iff, namedArgument?_eq_some_iff]
  constructor
  · rintro ⟨between, v, hsplit, rfl, hident, hbetween, hv⟩
    refine ⟨between, ?_⟩
    have hsplit' : s ++ (blanks ++ x :: u) = (name ++ (between ++ ['='])) ++ v := by
      rw [hsplit]; simp
    rcases List.append_eq_append_iff.1 hsplit' with ⟨m, hm, hm'⟩ | ⟨m, rfl, rfl⟩
    · rcases List.eq_nil_or_concat m with rfl | ⟨m, y, rfl⟩
      · exact ⟨[], by simpa using hm.symm, rfl, hident, hbetween, by simp⟩
      · exfalso
        rw [List.concat_eq_append] at hm hm'
        have hy : '=' = y := by simpa using congrArg List.getLast? hm
        have hplain : ∀ c ∈ m ++ [y], c ≠ x := by
          intro c hc
          have hmem : c ∈ name ++ (between ++ ['=']) := hm ▸ List.mem_append_right s hc
          simp only [List.mem_append, List.mem_singleton] at hmem
          rintro rfl
          rcases hmem with hmem | hmem | rfl
          · have hname := hident.forall (fun d => d ≠ c)
              (by rintro d (hd | hd) rfl <;> simp_all) c hmem
            exact hname rfl
          · exact absurd (hbetween c hmem) (by simp [hstop.1])
          · exact hstop.2.2.2 rfl
        have hequals : '=' ∉ blanks := fun hmem => absurd (hblanks _ hmem) (by decide)
        rw [hy] at hequals
        rcases List.append_eq_append_iff.1 hm' with ⟨k, hk, hbehind⟩ | ⟨k, rfl, -⟩
        · cases k with
          | nil =>
            rw [List.append_nil] at hk
            exact hequals (hk ▸ List.mem_append_right m (List.mem_singleton_self y))
          | cons z k => exact hplain z (by simp [hk]) (List.cons.inj hbehind).1.symm
        · exact hequals (by simp)
    · refine ⟨m, by simp, rfl, hident, hbetween, fun hmem => hv ?_⟩
      obtain ⟨w, rfl⟩ := List.head?_eq_some_iff.1 hmem
      rfl
  · rintro ⟨between, v, rfl, rfl, hident, hbetween, hv⟩
    refine ⟨between, v ++ (blanks ++ x :: u), by simp, rfl, hident, hbetween, fun hmem => ?_⟩
    cases v with
    | cons y v => exact hv hmem
    | nil =>
      cases blanks with
      | nil => exact hstop.2.2.2 (Option.some.inj hmem)
      | cons y blanks =>
        obtain rfl := Option.some.inj hmem
        exact absurd (hblanks '=' (List.mem_cons_self ..)) (by decide)

lemma not_isBlank_of_trivia {language : Language} {t : Text} (h : (trivia language t).1 = 0) :
    ∀ x ∈ t.head?, isBlank x = false := by
  intro x hx
  obtain ⟨u, rfl⟩ := List.head?_eq_some_iff.1 hx
  rw [trivia] at h
  rw [← Bool.not_eq_true]
  intro hblank
  simp [hblank] at h

/-- Between what is trimmed and the end there are blanks only. -/
lemma isBlank_between {s d e : Cursor} {source blanks : Text}
    (hrest : s.rest = source ++ (blanks ++ d.rest)) (hblanks : ∀ x ∈ blanks, isBlank x = true)
    (hd : s.Reaches d) (he : s.Reaches e) (hle : s.offset + bytes source ≤ e.offset)
    (hlt : e.offset < d.offset) : ∃ x u, e.rest = x :: u ∧ isBlank x = true := by
  obtain ⟨hbehind, hplace⟩ := Cursor.advance_append hrest
  obtain ⟨k, hk, -⟩ :=
    ((s.reaches_advance source.length).of_offset_le he (by omega)).exists_between
  obtain ⟨m, hm, hmoffset⟩ := (he.of_offset_le hd hlt.le).exists_between
  have hsplit : blanks = k ++ m := by
    refine List.append_cancel_right (?_ : blanks ++ d.rest = k ++ m ++ d.rest)
    rw [← hbehind, hk, hm, List.append_assoc]
  obtain ⟨x, u, rfl⟩ : ∃ x u, m = x :: u :=
    List.exists_cons_of_ne_nil fun hnil => by
      rw [hnil, bytes_nil] at hmoffset
      omega
  exact ⟨x, u ++ d.rest, hm, hblanks x (by simp [hsplit])⟩

/-- An argument whose value starts where it stops has no source. -/
lemma Argument.source_of_stop {a : Argument} (h : a.value.offset = a.stop) : a.source = [] := by
  rw [Argument.source, Cursor.upTo, h, Nat.sub_self]
  exact takeBytes_bytes_append [] a.value.rest

/-- Nor is it a literal. -/
lemma Argument.ne_ok_of_stop {buffer : Nat} {language : Language} {a : Argument}
    (h : a.value.offset = a.stop) (fs : List Fragment) :
    fragmentsFrom buffer language a.stop a.value ≠ .ok fs := by
  intro hfs
  obtain ⟨last, hlast, hle, -⟩ := fragmentsAt_of_fragmentsFrom hfs
  have hlt := hlast.offset_lt
  omega

/-- How an argument is read from the place where it starts to the place where it ends: a name
without a value has its value where it stops. -/
structure ArgumentAt (language : Language) (s d : Cursor) (a : Argument) : Prop where
  blanks : ∃ source blanks, s.rest = source ++ (blanks ++ d.rest) ∧
    a.stop = s.offset + bytes source ∧ ∀ x ∈ blanks, isBlank x = true
  le : a.value.offset ≤ a.stop
  value : (namedArgument? s.rest = none ∧ a.name = none ∧ a.value = s) ∨
    ∃ name n, namedArgument? s.rest = some (name, n) ∧ a.name = some name ∧
      (a.value = (s.advance n).skipTrivia language ∧ a.value.offset < d.offset ∨
        d.offset ≤ ((s.advance n).skipTrivia language).offset ∧ a.value.offset = a.stop)

namespace ArgumentAt

variable {language : Language} {s d : Cursor} {a : Argument}

lemma stop_le (h : ArgumentAt language s d a) (hd : s.Reaches d) : a.stop ≤ d.offset := by
  obtain ⟨source, blanks, hrest, hstop, -⟩ := h.blanks
  have hoffset := hd.offset_eq (hrest.trans (List.append_assoc ..).symm)
  rw [bytes_append] at hoffset
  omega

/-- The equals sign of a named argument is passed character by character. -/
lemma meets_name {name : Text} {n : Nat} (h : namedArgument? s.rest = some (name, n))
    (hapart : s.IsApart) :
    (∀ language, s.Meets language (s.advance n)) ∧ (s.advance n).IsApart := by
  obtain ⟨p, u, hrest, rfl, hlast, hnamed, -⟩ := exists_of_namedArgument? h
  refine ⟨fun language => Cursor.meets_plain hrest fun c hc => not_mem_of_named (hnamed c hc),
    Cursor.isApart_advance hrest hapart fun c hc => ?_⟩
  obtain rfl := Option.some.inj (hlast.symm.trans hc)
  decide +kernel

/-- The value stands where the argument stops, or at a place that is met. -/
lemma meets_value (h : ArgumentAt language s d a) (hapart : s.IsApart)
    (hd : s.Meets language d) (hrest : d.rest ≠ []) :
    a.value.offset = a.stop ∨ s.Meets language a.value ∧ a.value.IsApart := by
  rcases h.value with ⟨-, -, hvalue⟩ | ⟨name, n, hname, -, ⟨hvalue, hlt⟩ | ⟨-, hstop⟩⟩
  · rw [hvalue]
    exact .inr ⟨.refl s, hapart⟩
  · obtain ⟨hmeets, hnext⟩ := meets_name hname hapart
    have hskip := (hmeets language).trans (Cursor.meets_skipTrivia language _)
    rw [hvalue] at hlt ⊢
    refine .inr ⟨hskip, Cursor.isApart_skipTrivia hnext fun hnil => ?_⟩
    have hsuffix := (hskip.of_offset_le hd hlt.le).2.suffix
    rw [hnil, List.suffix_nil] at hsuffix
    exact hrest hsuffix
  · exact .inl hstop

end ArgumentAt

/-- **An argument** between a place and the one where it ends: there is none if nothing but white
space and comments stands there, and one from behind these otherwise. -/
lemma argumentBetween_cases {language : Language} {s d : Cursor} (hsd : s.Meets language d)
    (hend : d.EndsArgument) :
    (argumentBetween language s d.offset = none ∧
        d.offset ≤ (s.skipTrivia language).offset) ∨
      ∃ a, argumentBetween language s d.offset = some a ∧
        (s.skipTrivia language).offset < d.offset ∧
          ArgumentAt language (s.skipTrivia language) d a := by
  obtain ⟨x, u, hrest, hx⟩ := hend
  have hskip := s.meets_skipTrivia language
  unfold argumentBetween
  simp only
  split
  · exact .inl ⟨rfl, by omega⟩
  · rename_i hinner
    refine .inr ?_
    have hd := hskip.of_offset_le hsd (by omega)
    generalize s.skipTrivia language = inner at *
    obtain ⟨between, hbetween, hoffset⟩ := hd.1.exists_between
    obtain ⟨blanks, hsplit, hblanks⟩ := exists_eq_trimEndWhile_append isBlank between
    have htrim : trimEnd between = trimEndWhile isBlank between := rfl
    rw [hd.1.upTo_eq hbetween]
    generalize trimEnd between = source at htrim
    rw [← htrim] at hsplit
    have hsource : inner.rest = source ++ (blanks ++ d.rest) := by
      rw [hbetween, hsplit, List.append_assoc]
    have hbytes : d.offset = inner.offset + bytes source + bytes blanks := by
      rw [hoffset, hsplit, bytes_append, Nat.add_assoc]
    have hname : namedArgument? source = namedArgument? inner.rest := by
      rw [hsource, hrest, namedArgument?_append hx hblanks]
    rw [hname]
    split
    · rename_i name n hnamed
      have hnext := (inner.reaches_advance n).trans
        ((inner.advance n).reaches_skipTrivia language)
      by_cases hlt : ((inner.advance n).skipTrivia language).offset < d.offset
      · have hle : ((inner.advance n).skipTrivia language).offset ≤
            inner.offset + bytes source := by
          by_contra hbeyond
          obtain ⟨y, v, hy, hblank⟩ :=
            isBlank_between hsource hblanks hd.1 hnext (by omega) hlt
          have hnone := not_isBlank_of_trivia (trivia_drop_trivia language (inner.advance n).rest) y
          change y ∈ ((inner.advance n).skipTrivia language).rest.head? → _ at hnone
          rw [hy] at hnone
          simp [hblank] at hnone
        rw [if_pos hle]
        exact ⟨_, rfl, by omega, ⟨source, blanks, hsource, rfl, hblanks⟩, hle,
          .inr ⟨name, n, hnamed, rfl, .inl ⟨rfl, hlt⟩⟩⟩
      · have hstop : (if ((inner.advance n).skipTrivia language).offset ≤
            inner.offset + bytes source then (inner.advance n).skipTrivia language
              else inner.advance source.length).offset = inner.offset + bytes source := by
          split
          · omega
          · exact (Cursor.advance_append hsource).2
        exact ⟨_, rfl, by omega, ⟨source, blanks, hsource, rfl, hblanks⟩, hstop.le,
          .inr ⟨name, n, hnamed, rfl, .inr ⟨by omega, hstop⟩⟩⟩
    · rename_i hnone
      exact ⟨_, rfl, by omega, ⟨source, blanks, hsource, rfl, hblanks⟩, Nat.le_add_right ..,
        .inl ⟨hnone, rfl, rfl⟩⟩

/-- No name leads up to a place behind white space and comments inside an argument. -/
lemma Cursor.EndsArgument.isApart_skipTrivia {language : Language} {s d : Cursor}
    (hend : d.EndsArgument) (hapart : s.IsApart) (hd : (s.skipTrivia language).Meets language d) :
    (s.skipTrivia language).IsApart := by
  refine Cursor.isApart_skipTrivia hapart fun hnil => ?_
  obtain ⟨x, u, hrest, -⟩ := hend
  have hsuffix := hd.2.suffix
  rw [hnil, List.suffix_nil, hrest] at hsuffix
  cases hsuffix

/-- **What ends an argument** stands right behind the strings of its value, white space and comments
aside. -/
lemma ArgumentAt.ends {buffer : Nat} {language : Language} {s d : Cursor} {a : Argument}
    (h : ArgumentAt language s d a) (hsd : s.Meets language d) (hapart : s.IsApart)
    (hend : d.EndsArgument) {fragments : List Fragment}
    (hfragments : fragmentsFrom buffer language a.stop a.value = .ok fragments) :
    s.Meets language a.value ∧ a.value.IsApart ∧
      ∃ last, FragmentsAt buffer language a.value fragments last ∧
        last.skipTrivia language = d := by
  obtain ⟨x, u, hrest, hx⟩ := hend
  obtain ⟨last, hlast, hlastStop, hskip⟩ := fragmentsAt_of_fragmentsFrom hfragments
  have hlt := hlast.offset_lt
  obtain ⟨hvalue, hapart'⟩ := (h.meets_value hapart hsd (by simp [hrest])).resolve_left (by omega)
  refine ⟨hvalue, hapart', last, hlast, ?_⟩
  have hlast' := hvalue.trans hlast.meets
  have hd := hlast'.of_offset_le hsd (hlastStop.trans (h.stop_le hsd.1))
  have htrivia : (trivia language d.rest).1 = 0 := by
    rw [hrest]
    rcases hx with rfl | rfl <;> rw [trivia_eq_zero (by decide) (by decide) (by decide)]
  have hnext := last.meets_skipTrivia language
  refine Cursor.Meets.eq_of_rest hnext.1 hd.1 ?_
  rcases hd.2.behind_trivia with hbehind | heq
  · -- what is left of the argument is blank, but there are no blanks any more
    have hmeets := Cursor.Meets.of_strides hnext.1 hd.1 hbehind
    by_contra hne
    obtain ⟨m, hm, hoffset⟩ := hmeets.1.exists_between
    have hpos : 0 < bytes m := by
      refine bytes_pos fun hnil => hne ?_
      rw [hm, hnil, List.nil_append]
    obtain ⟨source, blanks, hsource, hstop, hblanks⟩ := h.blanks
    obtain ⟨y, v, hy, hyblank⟩ := isBlank_between hsource hblanks hsd.1 (hlast'.trans hnext).1
      (hstop ▸ hskip) (by omega)
    have hnone := not_isBlank_of_trivia (trivia_drop_trivia language last.rest) y
    change y ∈ (last.skipTrivia language).rest.head? → _ at hnone
    rw [hy] at hnone
    simp [hyblank] at hnone
  · rw [htrivia, List.drop_zero] at heq
    exact heq

/-- Strings in front of what ends an argument are the fragments of its value. -/
lemma ArgumentAt.exists_fragmentsFrom {buffer : Nat} {language : Language} {s d : Cursor}
    {a : Argument} (h : ArgumentAt language s d a) (hd : s.Reaches d) (hvalue : s.Reaches a.value)
    {fragments : List Fragment} {last : Cursor}
    (hlast : FragmentsAt buffer language a.value fragments last)
    (hskip : last.skipTrivia language = d) :
    ∃ fs, fragmentsFrom buffer language a.stop a.value = .ok fs ∧
      (language ≠ .python → fs = fragments) := by
  refine hlast.exists_fragmentsFrom ?_ (hskip ▸ h.stop_le hd)
  by_contra hbeyond
  have hnext := (last.reaches_skipTrivia language).offset_le
  rw [hskip] at hnext
  obtain ⟨e, y, he, hrest, hoffset, hquote⟩ := hlast.exists_quote
  obtain ⟨source, blanks, hsource, hstop, hblanks⟩ := h.blanks
  obtain ⟨x, u, hx, hblank⟩ :=
    isBlank_between hsource hblanks hd (hvalue.trans he) (by omega) (by omega)
  obtain ⟨rfl, -⟩ := List.cons.inj (hrest.symm.trans hx)
  rcases hquote with rfl | rfl <;> exact absurd hblank (by decide)

/-- The source of an argument's value, white space aside. -/
lemma ArgumentAt.trim_source {language : Language} {s d : Cursor} {a : Argument}
    (h : ArgumentAt language s d a) (hvalue : s.Reaches a.value)
    {w : Text} (hw : a.value.rest = w ++ d.rest) : trim a.source = trim w := by
  obtain ⟨source, blanks, hsource, hstop, hblanks⟩ := h.blanks
  obtain ⟨gap, hgap, hoffset⟩ := hvalue.exists_between
  rw [hw] at hgap
  have hbytes : bytes gap ≤ bytes source := by
    have hle := h.le
    omega
  obtain ⟨t, rfl, ht⟩ := prefix_of_bytes_le (hgap.symm.trans hsource) hbytes
  have hsplit : w = t ++ blanks := by
    refine List.append_cancel_right (?_ : w ++ d.rest = t ++ blanks ++ d.rest)
    rw [ht, List.append_assoc]
  have hupTo : a.source = t := by
    have hlength : a.stop - a.value.offset = bytes t := by
      rw [hstop, hoffset, bytes_append]
      omega
    rw [Argument.source, Cursor.upTo, hlength, hw, hsplit, List.append_assoc,
      takeBytes_bytes_append]
  rw [hupTo, hsplit, trim_append hblanks]

/-- What ends an argument stands behind the strings of its value.  So no string of a literal reaches
beyond the argument that it was read from, and nothing but white space and comments stands between
its last string and the end. -/
lemma ends_of_fragmentsFrom {buffer : Nat} {language : Language} {s d : Cursor} {a : Argument}
    (hsd : s.Meets language d) (hapart : s.IsApart) (hend : d.EndsArgument)
    (h : argumentBetween language s d.offset = some a) {fragments : List Fragment}
    (hfragments : fragmentsFrom buffer language a.stop a.value = .ok fragments) :
    s.Meets language a.value ∧ a.value.IsApart ∧
      ∃ last, FragmentsAt buffer language a.value fragments last ∧
        last.skipTrivia language = d := by
  rcases argumentBetween_cases hsd hend with ⟨hnone, -⟩ | ⟨a', ha', hlt, hat⟩
  · cases hnone.symm.trans h
  · obtain rfl := Option.some.inj (ha'.symm.trans h)
    have hskip := s.meets_skipTrivia language
    have hd := hskip.of_offset_le hsd hlt.le
    have hnext := hend.isApart_skipTrivia hapart hd
    obtain ⟨hvalue, hends⟩ := hat.ends hd hnext hend hfragments
    exact ⟨hskip.trans hvalue, hends⟩

/-! ## Literals -/

/-- Literals with their surroundings.  The scan meets each of them further on, at a place that no
name leads up to; behind it, white space and comments aside, its argument ends, and the next one is
met from there. -/
inductive Located (buffer : Nat) (language : Language) : Cursor → List Literal → Prop
  | nil (c : Cursor) : Located buffer language c []
  | cons {c first last next : Cursor} {l : Literal} {ls : List Literal}
      (hfirst : c.Meets language first) (hlt : c.offset < first.offset) (hapart : first.IsApart)
      (hl : l.StandsAt buffer language first last)
      (hend : (last.skipTrivia language).EndsArgument)
      (hnext : ((last.skipTrivia language).advance 1).Meets language next)
      (h : Located buffer language next ls) : Located buffer language c (l :: ls)

lemma Located.of_meets {buffer : Nat} {language : Language} {c d : Cursor} {ls : List Literal}
    (hmeets : c.Meets language d) (h : Located buffer language d ls) :
    Located buffer language c ls := by
  cases h with
  | nil => exact .nil c
  | cons hfirst hlt hapart hl hend hnext h =>
    exact .cons (hmeets.trans hfirst) (hmeets.1.offset_le.trans_lt hlt) hapart hl hend hnext h

/-- What an annotation holds is met behind its name, and the place to read on behind that.  So an
expression is where the scan that looks for the ends of arguments comes by, and what is found there
is not within a string or a comment. -/
lemma meets_readMark (buffer : Nat) (language : Language) (marks : Annotations) (name : Text)
    (sign head : Cursor) :
    head.Meets language (readMark buffer language marks name sign head).2 ∧
      ∀ l, (readMark buffer language marks name sign head).1 = .literal l →
        ∃ first last, head.Meets language first ∧ first.IsApart ∧
          l.StandsAt buffer language first last ∧ (last.skipTrivia language).EndsArgument ∧
          ((last.skipTrivia language).advance 1).Meets language
            (readMark buffer language marks name sign head).2 := by
  have hopening := head.meets_skipTrivia language
  unfold readMark
  simp only
  split
  · exact ⟨.refl head, by simp⟩
  · rename_i hparenthesis
    rw [ne_eq, not_not] at hparenthesis
    generalize head.skipTrivia language = opening at *
    obtain ⟨t, hrest⟩ := List.head?_eq_some_iff.1 hparenthesis
    have hinside : opening.Meets language (opening.advance 1) :=
      Cursor.meets_plain (s := ['(']) hrest (by simp)
    have hapart : (opening.advance 1).IsApart := by
      have hbefore : (opening.advance 1).before = some '(' := by
        rw [Cursor.before, Cursor.advance, hrest]
        rfl
      rw [Cursor.IsApart, hbefore]
      decide +kernel
    split
    · exact ⟨.refl head, by simp⟩
    · rename_i arguments stop harguments
      obtain ⟨hstop, hsegments⟩ := argumentsFrom_meets (.refl _) harguments
      split
      · exact ⟨hopening.trans (hinside.trans hstop), by simp⟩
      · rename_i query hquery
        refine ⟨hopening.trans (hinside.trans hstop), fun l hl => ?_⟩
        obtain ⟨s, d, hbetween, hs, hbefore, hsd, hend, hnext⟩ :=
          hsegments query (mem_of_queryArgument? hquery)
        have hapart' : s.IsApart := by
          rcases hbefore with rfl | hbefore
          · exact hapart
          · rw [Cursor.IsApart, hbefore]
            decide +kernel
        cases hfragments : fragmentsFrom buffer language query.stop query.value with
        | error obstacle => simp [hfragments, candidateOf] at hl
        | ok fragments =>
          obtain ⟨hvalue, hfirst, last, hlast, rfl⟩ :=
            ends_of_fragmentsFrom hsd hapart' hend hbetween hfragments
          obtain ⟨hstart, hstop⟩ := hlast.ends
          simp only [hfragments, candidateOf, hstart, hstop, Option.getD_some,
            Candidate.literal.injEq] at hl
          refine ⟨query.value, last, hopening.trans (hinside.trans (hs.trans hvalue)), hfirst,
            ⟨?_, ?_⟩, hend, hnext⟩
          · rw [← hl]
            exact hlast
          · rw [← hl]

/-- **The literals of a source** are located in it: each starts where a scan comes to behind the one
before, and a comma or a closing parenthesis ends its argument. -/
theorem located_locateFrom (buffer : Nat) (language : Language) (marks : Annotations)
    (c : Cursor) :
    Located buffer language c
      ((locateFrom buffer language marks c).filterMap Candidate.literal?) := by
  fun_induction locateFrom buffer language marks c with
  | case1 => exact .nil _
  | case2 c x t hrest n hsealed ih => exact ih.of_meets (Cursor.meets_sealed hrest hsealed)
  | case3 c x t hrest hsealed n hsign name head _ read ih =>
    have hhead : c.Meets language head := Cursor.meets_name hrest hsign.1
    obtain ⟨hread, hliteral⟩ := meets_readMark buffer language marks name c head
    cases hcandidate : read.1 with
    | skipped span failure => exact ih.of_meets (hhead.trans hread)
    | literal l =>
      obtain ⟨first, last, hfirst, hapart, hl, hend, hnext⟩ := hliteral l hcandidate
      have hlt : c.offset < head.offset := by
        rw [Cursor.offset_advance, hrest, List.take_succ_cons, bytes_cons]
        have := x.utf8Size_pos
        omega
      exact .cons (hhead.trans hfirst) (hlt.trans_le hfirst.1.offset_le) hapart hl hend hnext ih
  | case4 c x t hrest hsealed n hsign name head _ ih =>
    exact ih.of_meets (Cursor.meets_name hrest hsign.1)
  | case5 c x t hrest hsealed _ _ ih => exact ih.of_meets (Cursor.meets_one hrest hsealed)

end SqlInlay.Host
