import SqlInlay.Proofs.Host.Separators

/-!
# String expressions

An `Expression` is what a query is written as: strings that are read back as they were written
(`Legible`), joined by connections.  The text behind the expression takes part, for a string is only
known to end where the next character does not belong to it: an empty string in front of a quote
would open a block.

**Reading back.**  As the only argument of an annotation, an expression is found as one argument,
divided into the strings that it was made of, and reported as one literal (`locate_expression`).
The scans that take part are followed from the outside in.

* `locateFrom_pass` — the scan of a source that comes upon an expression outside of any annotation
  passes it string by string.
* `argumentsFrom_expression` — the scan of an argument list passes it too, and finds the argument to
  end behind it.  `ArgumentSign` tells apart what a character means to that scan.
* `fragmentsFrom_expression` — the scan of the strings finds those that the expression is made of,
  with the connections between them.
* `readMark_expression` — so the annotation holds one literal, which covers the expression.

Whatever a query is encoded as, it is enough to know that it is an expression: this is the one place
where encodings are looked for in a source.
-/

namespace SqlInlay.Host

open SqlInlay.Text

/-! ## Strings -/

/-- A string that is plain text, and is read back in front of `rest` as it was written.  It has to
be so behind any character that is part of no word, since it is not known what a string will stand
behind. -/
structure Legible (language : Language) (q : Quoted) (rest : Text) : Prop where
  plain : refusal? q = none
  quoted : ∀ before : Option Char, before.any isHostWordChar = false →
    quoted? language before (q.source ++ rest) = some (some q)

/-- The letters in front of a string are those that a string may have. -/
lemma mem_of_mem_markerOf {language : Language} {before : Option Char} {t : Text} {c : Char}
    (h : c ∈ markerOf language before t) : c ∈ "rRbBuUfF".toList := by
  unfold markerOf pythonMarker at h
  split at h
  · split at h
    · cases h
    · simp only at h
      split at h
      · split at h
        · simpa using List.mem_takeWhile_imp h
        · cases h
      · cases h
  · cases h
  · cases h

/-- Letters, quotes and content of a string that is read. -/
lemma quoted?_parts {language : Language} {before : Option Char} {t : Text} {q : Quoted}
    (h : quoted? language before t = some (some q)) :
    (∀ c ∈ q.marker, c ∈ "rRbBuUfF".toList) ∧
      ∃ quote more, (quote = '"' ∨ quote = '\'') ∧ q.delimiter = quote :: more ∧
        ∀ c ∈ q.delimiter, c = quote := by
  obtain ⟨delimiter, hdelimiter, hq⟩ := Option.map_eq_some_iff.1 h
  obtain ⟨content, -, rfl⟩ := Option.map_eq_some_iff.1 hq
  refine ⟨fun c hc => mem_of_mem_markerOf hc, ?_⟩
  have hquotes := (delimiter?_cases hdelimiter).2
  simp only [List.mem_cons, List.not_mem_nil, or_false] at hquotes
  rcases hquotes with (rfl | rfl) | ⟨-, rfl | rfl⟩
  · exact ⟨'"', _, .inl rfl, rfl, by simp⟩
  · exact ⟨'"', _, .inl rfl, rfl, by simp⟩
  · exact ⟨'\'', _, .inr rfl, rfl, by simp⟩
  · exact ⟨'\'', _, .inr rfl, rfl, by simp⟩

namespace Legible

variable {language : Language} {q : Quoted} {rest : Text}

/-- The parts of the string. -/
lemma parts (h : Legible language q rest) :
    (∀ c ∈ q.marker, c ∈ "rRbBuUfF".toList) ∧
      ∃ quote more, (quote = '"' ∨ quote = '\'') ∧ q.delimiter = quote :: more ∧
        ∀ c ∈ q.delimiter, c = quote :=
  quoted?_parts (h.quoted none rfl)

/-- A string ends in a quote. -/
lemma getLast? (h : Legible language q rest) {c : Char} (hc : c ∈ q.source.getLast?) :
    c = '"' ∨ c = '\'' := by
  obtain ⟨-, quote, more, hquote, hdelimiter, hall⟩ := h.parts
  have hlast : c ∈ q.delimiter := by
    rw [Quoted.source, List.getLast?_append, hdelimiter, List.getLast?_cons] at hc
    rw [hdelimiter]
    exact List.mem_of_getLast? (by rw [List.getLast?_cons]; simpa using hc)
  rw [hall c hlast]
  exact hquote

lemma not_isHostWordChar (h : Legible language q rest) {c : Char} (hc : c ∈ q.source.getLast?) :
    isHostWordChar c = false := by
  rcases h.getLast? hc with rfl | rfl <;> decide +kernel

lemma ne_nil (h : Legible language q rest) : q.source ≠ [] :=
  List.ne_nil_of_length_pos (length_source_pos (h.quoted none rfl))

end Legible

/-- String literals joined by connections, in front of `rest`.  Each of them is legible in front of
everything behind it, so the whole can be read from its start without looking back. -/
inductive Expression (language : Language) (rest : Text) : Text → List Quoted → Prop
  | last {q : Quoted} (hq : Legible language q rest) : Expression language rest q.source [q]
  | cons {q : Quoted} {s e : Text} {qs : List Quoted} (hq : Legible language q (s ++ (e ++ rest)))
      (hs : Joins language s) (h : Expression language rest e qs) :
      Expression language rest (q.source ++ (s ++ e)) (q :: qs)

namespace Expression

variable {language : Language} {rest e : Text} {qs : List Quoted}

/-- An expression starts with a string. -/
lemma exists_legible (h : Expression language rest e qs) :
    ∃ q t, e ++ rest = q.source ++ t ∧ Legible language q t ∧ q.source <+: e := by
  cases h with
  | @last q hq => exact ⟨q, rest, rfl, hq, List.prefix_rfl⟩
  | @cons q s e qs hq hs h => exact ⟨q, _, by simp, hq, List.prefix_append ..⟩

lemma ne_nil (h : Expression language rest e qs) : e ≠ [] := by
  obtain ⟨q, t, -, hq, more, rfl⟩ := h.exists_legible
  exact fun hnil => hq.ne_nil (List.append_eq_nil_iff.1 hnil).1

/-- An expression ends in a quote. -/
lemma getLast? (h : Expression language rest e qs) : ∀ c ∈ e.getLast?, c = '"' ∨ c = '\'' := by
  induction h with
  | last hq => exact fun c hc => hq.getLast? hc
  | @cons q s e qs hq hs h ih =>
    intro c hc
    obtain ⟨d, e', rfl⟩ := List.exists_cons_of_ne_nil h.ne_nil
    rw [← List.append_assoc, List.getLast?_append, List.getLast?_cons] at hc
    exact ih c (by rw [List.getLast?_cons]; simpa using hc)

lemma trimEnd_eq (h : Expression language rest e qs) : trimEnd e = e := by
  refine trimEndWhile_of_getLast? fun c hc => ?_
  rcases h.getLast? c hc with rfl | rfl <;> rfl

/-- An expression does not start a named argument.  Its letters may pass for the start of a name,
but the name ends at the quote, and a quote is not a sign of equality. -/
lemma namedArgument?_eq (h : Expression language rest e qs) (t : Text) :
    namedArgument? (e ++ t) = none := by
  obtain ⟨q, _, -, hq, more, rfl⟩ := h.exists_legible
  obtain ⟨hmarker, quote, delimiter, hquote, hdelimiter, -⟩ := hq.parts
  have hsource : q.source ++ more ++ t =
      q.marker ++ quote :: (delimiter ++ q.content ++ q.delimiter ++ more ++ t) := by
    simp [Quoted.source, hdelimiter]
  rw [hsource]
  generalize delimiter ++ q.content ++ q.delimiter ++ more ++ t = u
  have hstop : isIdentStart quote = false ∧ isIdentChar quote = false ∧ isBlank quote = false ∧
      quote ≠ '=' := by
    rcases hquote with rfl | rfl <;> decide
  obtain ⟨hstart, hchar, hblank, heq⟩ := hstop
  cases hm : q.marker with
  | nil => simp [namedArgument?, identLength, hstart]
  | cons m ms =>
    rw [hm, List.forall_mem_cons] at hmarker
    have hall : "rRbBuUfF".toList.all (fun c => isIdentStart c && isIdentChar c) = true := by
      decide
    have hletter : ∀ c ∈ "rRbBuUfF".toList, isIdentStart c = true ∧ isIdentChar c = true := by
      intro c hc
      simpa using List.all_eq_true.1 hall c hc
    have hlength : identLength (m :: ms ++ quote :: u) = (m :: ms).length := by
      rw [List.cons_append, identLength, if_pos (hletter m hmarker.1).1,
        List.takeWhile_append_of_pos fun c hc => (hletter c (hmarker.2 c hc)).2,
        List.takeWhile_cons_of_neg (by rw [hchar]; exact Bool.false_ne_true)]
      simp [Nat.add_comm]
    have hdrop : (m :: ms ++ quote :: u).drop (m :: ms).length = quote :: u := List.drop_left
    simp only [namedArgument?, hlength, hdrop]
    rw [List.takeWhile_cons_of_neg (by rw [hblank]; exact Bool.false_ne_true)]
    simp only [List.length_nil, Nat.add_zero, hdrop]
    split
    · rfl
    · split
      · rfl
      · rename_i hhead
        exact absurd (List.cons.inj hhead).1 heq
      · rfl

end Expression

/-! ## Arguments

Brackets are counted by this scan, and strings are passed at once, so that brackets and commas
inside of them do not count.  In an expression there are none outside of strings and comments.
-/

/-- What a character outside comments and literals means for an argument list. -/
inductive ArgumentSign where
  /-- The argument goes on, and leaves some brackets open. -/
  | inside (depth : Nat)
  /-- The argument ends in front of another one. -/
  | comma
  /-- The list ends. -/
  | close

/-- What a character means where some brackets are open. -/
def argumentSign (depth : Nat) (x : Char) : ArgumentSign :=
  if x = '(' ∨ x = '[' ∨ x = '\x7b' then .inside (depth + 1)
  else if (x = ')' ∨ x = ']' ∨ x = '\x7d') ∧ depth > 0 then .inside (depth - 1)
  else if x = ')' then .close
  else if x = ',' ∧ depth = 0 then .comma
  else .inside depth

lemma eq_of_argumentSign_close {depth : Nat} {x : Char} (h : argumentSign depth x = .close) :
    x = ')' := by
  unfold argumentSign at h
  split_ifs at h with _ _ hx
  exact hx

lemma eq_of_argumentSign_comma {depth : Nat} {x : Char} (h : argumentSign depth x = .comma) :
    x = ',' := by
  unfold argumentSign at h
  split_ifs at h with _ _ _ hx
  exact hx.1

/-- A character that is neither a bracket nor a comma belongs to the argument. -/
lemma argumentSign_of_notMem {x : Char} (h : x ∉ "([\x7b)]\x7d,".toList) (depth : Nat) :
    argumentSign depth x = .inside depth := by
  simp only [String.reduceToList, List.mem_cons, List.not_mem_nil, or_false, not_or] at h
  obtain ⟨h₁, h₂, h₃, h₄, h₅, h₆, h₇⟩ := h
  simp only [argumentSign, h₁, h₂, h₃, h₄, h₅, h₆, h₇, or_self, false_and, if_false]

/-- One step through an argument list. -/
lemma argumentsFrom_cons {language : Language} {depth : Nat} {start c : Cursor} {x : Char}
    {t : Text} (h : c.rest = x :: t) :
    argumentsFrom language depth start c =
      match sealedTail? language c.before x t with
      | some n => argumentsFrom language depth start (c.advance (n + 1))
      | none =>
        match argumentSign depth x with
        | .inside depth' => argumentsFrom language depth' start (c.advance 1)
        | .comma =>
          (argumentsFrom language depth (c.advance 1) (c.advance 1)).map fun (arguments, stop) =>
            ((argumentBetween language start c.offset).toList ++ arguments, stop)
        | .close => some ((argumentBetween language start c.offset).toList, c.advance 1) := by
  rw [argumentsFrom]
  split
  · rename_i hnil
    simp [hnil] at h
  · rename_i y u hcons
    obtain ⟨rfl, rfl⟩ := List.cons.inj (hcons.symm.trans h)
    cases sealedTail? language c.before y u with
    | some n => rfl
    | none =>
      simp only [argumentSign]
      split_ifs <;> rfl

lemma argumentsFrom_nil {language : Language} {depth : Nat} {start c : Cursor} (h : c.rest = []) :
    argumentsFrom language depth start c = none := by
  rw [argumentsFrom]
  split
  · rfl
  · rename_i hcons
    simp [h] at hcons

/-- Idle characters are passed over. -/
lemma argumentsFrom_idle {language : Language} {depth : Nat} {start c : Cursor} {s t : Text}
    (hs : ∀ x ∈ s, isIdle x = true) (hrest : c.rest = s ++ t) :
    argumentsFrom language depth start c =
      argumentsFrom language depth start (c.advance s.length) := by
  induction s generalizing c with
  | nil =>
    have hadvance : c.advance 0 = c := by simp [Cursor.advance]
    rw [List.length_nil, hadvance]
  | cons x s ih =>
    rw [List.forall_mem_cons] at hs
    have hx := not_mem_of_isIdle hs.1
    have hnone : sealedTail? language c.before x (s ++ t) = none :=
      sealedTail?_eq_none (List.notMem_of_subset (by decide) hx)
    have hplain : x ∉ "([\x7b)]\x7d,".toList := List.notMem_of_subset (by decide) hx
    rw [List.cons_append] at hrest
    have hbehind : (c.advance 1).rest = s ++ t := by
      rw [Cursor.advance, hrest]
      rfl
    rw [argumentsFrom_cons hrest, hnone, argumentSign_of_notMem hplain depth]
    simp only
    rw [ih hs.2 hbehind, Cursor.advance_advance, List.length_cons, Nat.add_comm]

/-- A scan passes a string at once. -/
lemma Legible.exists_sealed {language : Language} {c : Cursor} {q : Quoted} {t : Text}
    (hq : Legible language q t) (hfree : c.IsFree) :
    ∃ x u, q.source = x :: u ∧
      sealedTail? language c.before x (u ++ t) = some (q.source.length - 1) := by
  have hquoted := hq.quoted _ hfree
  obtain ⟨x, u, hsource⟩ := List.exists_cons_of_ne_nil hq.ne_nil
  rw [hsource, List.cons_append] at hquoted
  have hcomment : x ≠ '#' ∧ x ≠ '/' := by
    constructor <;>
    · rintro rfl
      rw [quoted?_eq_none (by decide)] at hquoted
      cases hquoted
  exact ⟨x, u, hsource,
    by simp [sealedTail?, commentTail?_eq_none hcomment, literalTail?, hquoted]⟩

/-- A string is passed over as a whole. -/
lemma argumentsFrom_string {language : Language} {depth : Nat} {start c : Cursor} {q : Quoted}
    {t : Text} (hq : Legible language q t) (hrest : c.rest = q.source ++ t) (hfree : c.IsFree) :
    argumentsFrom language depth start c =
      argumentsFrom language depth start (c.advance q.source.length) := by
  obtain ⟨x, u, hsource, hsealed⟩ := hq.exists_sealed hfree
  rw [hsource, List.cons_append] at hrest
  rw [argumentsFrom_cons hrest, hsealed]
  simp only [hsource, List.length_cons, Nat.add_sub_cancel]

/-- An expression is passed over string by string. -/
lemma argumentsFrom_pass {language : Language} {depth : Nat} {start c : Cursor} {e t : Text}
    {qs : List Quoted} (h : Expression language t e qs) (hrest : c.rest = e ++ t)
    (hfree : c.IsFree) :
    argumentsFrom language depth start c =
      argumentsFrom language depth start (c.advance e.length) := by
  induction h generalizing c with
  | last hq => exact argumentsFrom_string hq hrest hfree
  | @cons q s e qs hq hs h ih =>
    have hrest' : c.rest = q.source ++ (s ++ (e ++ t)) := by simpa using hrest
    have hnext := (Cursor.advance_append hrest').1
    have hfree' := Cursor.isFree_advance hrest' hfree fun x hx => hq.not_isHostWordChar hx
    have hfree'' := Cursor.isFree_advance hnext hfree' fun x hx =>
      not_isHostWordChar_of_isIdle (hs.isIdle x (List.mem_of_getLast? hx))
    rw [argumentsFrom_string hq hrest' hfree, argumentsFrom_idle hs.isIdle hnext,
      ih (Cursor.advance_append hnext).1 hfree'']
    simp [Cursor.advance_advance, Nat.add_assoc]

/-- **An expression in front of the closing parenthesis** ends the argument that it is in.  The
argument may start in front of the expression, with a name and a sign. -/
lemma argumentsFrom_expression (start : Cursor) {language : Language} {c : Cursor} {e u : Text}
    {qs : List Quoted} (h : Expression language (')' :: u) e qs) (hrest : c.rest = e ++ ')' :: u)
    (hfree : c.IsFree) :
    argumentsFrom language 0 start c =
      some ((argumentBetween language start (c.offset + bytes e)).toList,
        c.advance (e.length + 1)) := by
  obtain ⟨hnext, hoffset⟩ := Cursor.advance_append hrest
  have hnone : sealedTail? language (c.advance e.length).before ')' u = none :=
    sealedTail?_eq_none (by decide)
  rw [argumentsFrom_pass h hrest hfree, argumentsFrom_cons hnext, hnone]
  simp [argumentSign, hoffset, Cursor.advance_advance]

/-- An expression is an argument without a name. -/
lemma argumentBetween_expression {language : Language} {c : Cursor} {e t : Text}
    {qs : List Quoted} (h : Expression language t e qs) (hrest : c.rest = e ++ t) :
    argumentBetween language c (c.offset + bytes e) = some ⟨none, c, c.offset + bytes e⟩ := by
  obtain ⟨q, u, heq, hq, -⟩ := h.exists_legible
  have htrivia : (trivia language c.rest).1 = 0 := by
    rw [hrest, heq]
    exact trivia_of_quoted? (hq.quoted none rfl)
  have hskip : c.skipTrivia language = c := by
    rw [Cursor.skipTrivia, htrivia]
    simp [Cursor.advance]
  have hpos := bytes_pos h.ne_nil
  have hupTo : c.upTo (c.offset + bytes e) = e := by
    rw [Cursor.upTo, Nat.add_sub_cancel_left, hrest, takeBytes_bytes_append]
  have hname : namedArgument? e = none := by simpa using h.namedArgument?_eq []
  unfold argumentBetween
  simp only [hskip, hupTo, h.trimEnd_eq, hname]
  rw [if_neg (by omega)]

/-! ## Fragments -/

/-- A fragment of a source is a string as it is read.  The fragment has spans where the string has
texts. -/
structure Shows (source : Text) (language : Language) (f : Fragment) (q : Quoted) : Prop where
  content : f.content.of source = q.content
  style : f.style = q.style language
  marker : f.marker = q.marker
  delimiter : f.delimiter = q.delimiter

/-- The fragment at a place shows the string there. -/
lemma shows_fragmentAt {buffer : Nat} {language : Language} {c : Cursor} {q : Quoted} {t : Text}
    (hrest : c.rest = q.source ++ t) (joiner : Option Joiner) :
    Shows c.text language { fragmentAt buffer language c q with joiner := joiner } q where
  content := by
    have htext : c.text =
        (c.passed.reverse ++ q.marker ++ q.delimiter) ++ (q.content ++ (q.delimiter ++ t)) := by
      simp [Cursor.text, hrest, Quoted.source]
    rw [htext]
    refine slice_bytes ?_ ?_ <;>
      simp [fragmentAt, Cursor.offset, bytes_reverse, Nat.add_assoc]
  style := rfl
  marker := rfl
  delimiter := rfl

/-- One string of several: what comes of it is its fragment, and of what stands behind it whatever
is read there.  That the string is plain text and lies in front of the stop is known, so neither has
to be looked at again. -/
lemma fragmentsFrom_string {buffer : Nat} {language : Language} {stop : Nat} {c : Cursor}
    {q : Quoted} (hq : quoted? language c.before c.rest = some (some q)) (hplain : refusal? q = none)
    (hstop : (c.advance q.source.length).offset ≤ stop) :
    fragmentsFrom buffer language stop c =
      let behind := c.advance q.source.length
      let next := behind.skipTrivia language
      if next.offset ≥ stop then .ok [fragmentAt buffer language c q]
      else
        match joinerAt language (trivia language behind.rest).2 next with
        | none => .error .notPlainString
        | some (joiner, following) =>
          (fragmentsFrom buffer language stop following).map
            ({ fragmentAt buffer language c q with joiner := some joiner } :: ·) := by
  rw [fragmentsFrom]
  split
  · rename_i hnil
    obtain ⟨rest, hrest⟩ := prefix_of_quoted? hq
    rw [hnil] at hrest
    have hpos := length_source_pos hq
    rw [(List.append_eq_nil_iff.1 hrest).1] at hpos
    cases hpos
  · rename_i x u hcons
    rw [hcons] at hq
    split
    · rename_i hnone
      cases hnone.symm.trans hq
    · rename_i hnone
      cases hnone.symm.trans hq
    · rename_i q' hq'
      obtain rfl : q = q' := by
        have := hq'.symm.trans hq
        simpa using this.symm
      simp only [hplain]
      rw [if_neg (by omega)]
      split
      · rfl
      · split <;> rename_i hj <;> rw [hj]

/-- **The fragments of an expression** are its strings, one for each and in order.  The first starts
where the expression does, and the last stops where it stops. -/
lemma fragmentsFrom_expression (buffer : Nat) {language : Language} {c : Cursor} {e t : Text}
    {qs : List Quoted} (h : Expression language t e qs) (hrest : c.rest = e ++ t)
    (hfree : c.IsFree) :
    ∃ fs, fragmentsFrom buffer language (c.offset + bytes e) c = .ok fs ∧
      List.Forall₂ (Shows c.text language) fs qs ∧
      fs.head?.map (·.span.start) = some c.offset ∧
      fs.getLast?.map (·.span.stop) = some (c.offset + bytes e) := by
  induction h generalizing c with
  | @last q hq =>
    have hoffset := (Cursor.advance_append hrest).2
    have hskip := ((c.advance q.source.length).reaches_skipTrivia language).offset_le
    refine ⟨[fragmentAt buffer language c q], ?_, .cons (shows_fragmentAt hrest none) .nil, rfl,
      rfl⟩
    rw [fragmentsFrom_string (hrest ▸ hq.quoted _ hfree) hq.plain hoffset.le]
    simp only
    rw [if_pos (by omega)]
  | @cons q s e qs hq hs h ih =>
    have hrest' : c.rest = q.source ++ (s ++ (e ++ t)) := by simpa using hrest
    obtain ⟨hnext, hoffset⟩ := Cursor.advance_append hrest'
    obtain ⟨hnext', hoffset'⟩ := Cursor.advance_append hnext
    have hfree' := Cursor.isFree_advance hrest' hfree fun x hx => hq.not_isHostWordChar hx
    have hfree'' := Cursor.isFree_advance hnext hfree' fun x hx =>
      not_isHostWordChar_of_isIdle (hs.isIdle x (List.mem_of_getLast? hx))
    obtain ⟨q', u, heq, hq', -⟩ := h.exists_legible
    obtain ⟨hle, joiner, hjoiner⟩ := joinerAt_of_joins hs hnext hfree'
      (heq ▸ hq'.quoted) (trivia language (c.advance q.source.length).rest).2
    obtain ⟨fs, hfs, hshows, hfirst, hlast⟩ := ih hnext' hfree''
    have hbytes : c.offset + bytes (q.source ++ (s ++ e)) =
        ((c.advance q.source.length).advance s.length).offset + bytes e := by
      rw [hoffset', hoffset]
      simp only [bytes_append]
      omega
    have hpos := bytes_pos h.ne_nil
    have htext : ((c.advance q.source.length).advance s.length).text = c.text := by simp
    rw [htext] at hshows
    refine ⟨{ fragmentAt buffer language c q with joiner := some joiner } :: fs, ?_,
      .cons (shows_fragmentAt hrest' _) hshows, rfl, ?_⟩
    · rw [fragmentsFrom_string (hrest' ▸ hq.quoted _ hfree) hq.plain
        (by simp only [bytes_append]; omega)]
      simp only
      rw [if_neg (by rw [hbytes]; omega), hjoiner, hbytes]
      simp only [hfs]
      rfl
    · cases fs with
      | nil => simp at hlast
      | cons f fs =>
        rw [hbytes, List.getLast?_cons_cons]
        exact hlast

/-! ## Annotations -/

/-- The source in which the query annotation has an expression for its only argument. -/
def annotate (e : Text) : Text := "@Query(".toList ++ e ++ ")".toList

lemma annotate_eq (e : Text) :
    annotate e = ['@', 'Q', 'u', 'e', 'r', 'y'] ++ (['('] ++ (e ++ [')'])) := by
  unfold annotate
  simp only [String.reduceToList, List.cons_append, List.nil_append]

/-- One step through a source. -/
lemma locateFrom_cons {buffer : Nat} {language : Language} {marks : Annotations} {c : Cursor}
    {x : Char} {t : Text} (h : c.rest = x :: t) :
    locateFrom buffer language marks c =
      match sealedTail? language c.before x t with
      | some n => locateFrom buffer language marks (c.advance (n + 1))
      | none =>
        let n := qualifiedLength t
        if x = '@' ∧ !c.before.any isHostWordChar ∧ n > 0 then
          let name := t.take n
          let head := c.advance (n + 1)
          if marks.recognizes name then
            let read := readMark buffer language marks name c head
            read.1 :: locateFrom buffer language marks read.2
          else locateFrom buffer language marks head
        else locateFrom buffer language marks (c.advance 1) := by
  rw [locateFrom]
  split
  · rename_i hnil
    simp [hnil] at h
  · rename_i y u hcons
    obtain ⟨rfl, rfl⟩ := List.cons.inj (hcons.symm.trans h)
    rfl

lemma locateFrom_nil {buffer : Nat} {language : Language} {marks : Annotations} {c : Cursor}
    (h : c.rest = []) : locateFrom buffer language marks c = [] := by
  rw [locateFrom]
  split
  · rfl
  · rename_i hcons
    simp [h] at hcons

/-- Idle characters are passed over. -/
lemma locateFrom_idle {buffer : Nat} {language : Language} {marks : Annotations} {c : Cursor}
    {s t : Text} (hs : ∀ x ∈ s, isIdle x = true) (hrest : c.rest = s ++ t) :
    locateFrom buffer language marks c = locateFrom buffer language marks (c.advance s.length) := by
  induction s generalizing c with
  | nil => simp [Cursor.advance]
  | cons x s ih =>
    rw [List.forall_mem_cons] at hs
    rw [List.cons_append] at hrest
    have hx := not_mem_of_isIdle hs.1
    have hnone : sealedTail? language c.before x (s ++ t) = none :=
      sealedTail?_eq_none (List.notMem_of_subset (by decide) hx)
    have hsign : x ≠ '@' := by
      rintro rfl
      exact absurd hs.1 (by decide)
    have hbehind : (c.advance 1).rest = s ++ t := by
      rw [Cursor.advance, hrest]
      rfl
    rw [locateFrom_cons hrest, hnone]
    simp only [hsign, false_and, if_false]
    rw [ih hs.2 hbehind, Cursor.advance_advance, List.length_cons, Nat.add_comm]

/-- A string is passed over as a whole. -/
lemma locateFrom_string {buffer : Nat} {language : Language} {marks : Annotations} {c : Cursor}
    {q : Quoted} {t : Text} (hq : Legible language q t) (hrest : c.rest = q.source ++ t)
    (hfree : c.IsFree) :
    locateFrom buffer language marks c =
      locateFrom buffer language marks (c.advance q.source.length) := by
  obtain ⟨x, u, hsource, hsealed⟩ := hq.exists_sealed hfree
  rw [hsource, List.cons_append] at hrest
  rw [locateFrom_cons hrest, hsealed]
  simp only [hsource, List.length_cons, Nat.add_sub_cancel]

/-- An expression is passed over string by string. -/
lemma locateFrom_pass {buffer : Nat} {language : Language} {marks : Annotations} {c : Cursor}
    {e t : Text} {qs : List Quoted} (h : Expression language t e qs) (hrest : c.rest = e ++ t)
    (hfree : c.IsFree) :
    locateFrom buffer language marks c = locateFrom buffer language marks (c.advance e.length) := by
  induction h generalizing c with
  | last hq => exact locateFrom_string hq hrest hfree
  | @cons q s e qs hq hs h ih =>
    have hrest' : c.rest = q.source ++ (s ++ (e ++ t)) := by simpa using hrest
    have hnext := (Cursor.advance_append hrest').1
    have hfree' := Cursor.isFree_advance hrest' hfree fun x hx => hq.not_isHostWordChar hx
    have hfree'' := Cursor.isFree_advance hnext hfree' fun x hx =>
      not_isHostWordChar_of_isIdle (hs.isIdle x (List.mem_of_getLast? hx))
    rw [locateFrom_string hq hrest' hfree, locateFrom_idle hs.isIdle hnext,
      ih (Cursor.advance_append hnext).1 hfree'']
    simp [Cursor.advance_advance, Nat.add_assoc]

/-- The name of the query annotation ends at the opening parenthesis. -/
lemma qualifiedLength_query (t : Text) :
    qualifiedLength (['Q', 'u', 'e', 'r', 'y'] ++ ('(' :: t)) = 5 := by
  have hstop : isIdentChar '(' = false := by decide
  have hident : identLength (['Q', 'u', 'e', 'r', 'y'] ++ ('(' :: t)) = 5 := by
    have hletters : ∀ c ∈ ['u', 'e', 'r', 'y'], isIdentChar c = true :=
      List.all_eq_true.1 (by decide)
    rw [List.cons_append, identLength, if_pos (by decide), List.takeWhile_append_of_pos hletters,
      List.takeWhile_cons_of_neg (by rw [hstop]; exact Bool.false_ne_true)]
    rfl
  rw [qualifiedLength]
  simp only [hident]
  rfl

/-- What the query annotation holds in front of an expression.  The expression is the only argument
and the closing parenthesis ends the text, so the literal is read of the whole of it and nothing is
left to read on from. -/
lemma readMark_expression (name : Text) (sign : Cursor) {language : Language} {head : Cursor}
    {e : Text}
    {qs : List Quoted} (h : Expression language [')'] e qs)
    (hrest : head.rest = ['('] ++ (e ++ [')'])) :
    ∃ l : Literal, (readMark 0 language {} name sign head).1 = .literal l ∧
      (readMark 0 language {} name sign head).2.rest = [] ∧
      l.span = ⟨0, head.offset + 1, head.offset + 1 + bytes e⟩ ∧
      List.Forall₂ (Shows head.text language) l.fragments qs := by
  have hskip : head.skipTrivia language = head := by
    rw [Cursor.skipTrivia, hrest, List.singleton_append,
      trivia_eq_zero (by decide) (by decide) (by decide)]
    simp [Cursor.advance]
  obtain ⟨hinside, hoffset⟩ := Cursor.advance_append hrest
  have hfree : (head.advance 1).IsFree := by
    have hbefore : (head.advance 1).before = some '(' := by
      rw [Cursor.before, Cursor.advance, hrest]
      rfl
    rw [Cursor.IsFree, hbefore]
    decide +kernel
  have hopening : head.rest.head? = some '(' := by rw [hrest]; rfl
  have htext : (head.advance 1).text = head.text := head.text_advance 1
  have hbytes : (head.advance 1).offset = head.offset + 1 := hoffset
  generalize hadvance : head.advance 1 = opening at *
  obtain ⟨fs, hfs, hshows, hfirst, hlast⟩ :=
    fragmentsFrom_expression 0 h hinside hfree
  have harguments := argumentsFrom_expression opening h hinside hfree
  rw [argumentBetween_expression h hinside] at harguments
  have hend : (opening.advance (e.length + 1)).rest = [] := by
    simp [Cursor.advance, hinside]
  have hquery : queryArgument? {} [⟨none, opening, opening.offset + bytes e⟩] =
      some ⟨none, opening, opening.offset + bytes e⟩ := rfl
  rw [← hbytes]
  refine ⟨⟨name, ⟨0, opening.offset, opening.offset + bytes e⟩, fs,
    dialectOf {} name [⟨none, opening, opening.offset + bytes e⟩]⟩, ?_, ?_, rfl, htext ▸ hshows⟩
  · unfold readMark
    simp only [hskip, hopening, ne_eq, not_true_eq_false, if_false]
    rw [hadvance, harguments]
    simp only [Option.toList_some, hquery, hfs, candidateOf, hfirst, hlast, Option.getD_some]
  · unfold readMark
    simp only [hskip, hopening, ne_eq, not_true_eq_false, if_false]
    rw [hadvance, harguments]
    simp only [Option.toList_some, hquery, hend]

/-- **An expression in an annotation** is found as one literal that covers it.  Its fragments show
the strings of the expression, so decoding the literal is reading these. -/
theorem locate_expression {language : Language} {e : Text} {qs : List Quoted}
    (h : Expression language [')'] e qs) :
    ∃ l : Literal, locate 0 language {} (annotate e) = [.literal l] ∧
      l.span = ⟨0, 7, 7 + bytes e⟩ ∧
      List.Forall₂ (Shows (annotate e) language) l.fragments qs := by
  have hrest : (Cursor.start (annotate e)).rest =
      '@' :: (['Q', 'u', 'e', 'r', 'y'] ++ ('(' :: (e ++ [')']))) := annotate_eq e
  have hrest' : (Cursor.start (annotate e)).rest =
      ['@', 'Q', 'u', 'e', 'r', 'y'] ++ (['('] ++ (e ++ [')'])) := annotate_eq e
  obtain ⟨hhead, hoffset⟩ := Cursor.advance_append hrest'
  have htext : ((Cursor.start (annotate e)).advance 6).text = annotate e := by simp
  obtain ⟨l, hl, hbehind, hspan, hshows⟩ :=
    readMark_expression ['Q', 'u', 'e', 'r', 'y'] (.start (annotate e)) h hhead
  refine ⟨l, ?_, ?_, ?_⟩
  · have hnone : ∀ t, sealedTail? language (Cursor.start (annotate e)).before '@' t = none :=
      fun t => sealedTail?_eq_none (by decide)
    have hbefore : (Cursor.start (annotate e)).before = none := rfl
    have hknown : Annotations.recognizes {} ['Q', 'u', 'e', 'r', 'y'] = true := by decide
    rw [locate, locateFrom_cons hrest, hnone]
    simp only [qualifiedLength_query, hbefore]
    have hname : (['Q', 'u', 'e', 'r', 'y'] ++ '(' :: (e ++ [')'])).take 5 =
        ['Q', 'u', 'e', 'r', 'y'] := rfl
    rw [if_pos (by decide), hname, if_pos hknown]
    exact congrArg₂ List.cons hl (locateFrom_nil hbehind)
  · rw [hspan, hoffset]
    rfl
  · rw [← htext]
    exact hshows

end SqlInlay.Host
