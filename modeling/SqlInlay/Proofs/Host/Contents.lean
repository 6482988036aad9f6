import SqlInlay.Host.Scan
import SqlInlay.Proofs.Host.Escapes
import SqlInlay.Proofs.Text.Search

/-!
# What may stand between quotes

`Walks` describes the texts that the scan of a content passes over: escapes in pairs, other
characters as long as the closing quotes do not start there.  It speaks of one character at a time
and of what follows it, so that it can be shown of a text by the recursion that made the text.

**Escaped texts** may stand between quotes, because quotes, line feeds and templates are escaped in
them.

* `Fits` — what the rule for contents and the escapes of a language have to do with each other.
* `Fits.walks_escapeChar` — what one character is written as is passed over.
* `walks_escape` — so is a whole text, in front of the closing quote.

**Raw texts** may if they hold no closing quotes and do not end in a backslash (`walks_raw`).

**Strings.**  A string around a content that is read whole is read back as it was written
(`quoted?_of_content?`): its letters are found in front of its quotes, and these are found to be one
or three.
-/

namespace SqlInlay.Host

open SqlInlay.Text

/-! ## Contents that are passed over -/

/-- A text that the scan of a content passes over in front of `rest`.  What follows counts, for it
may turn the end of the text into the start of a template or of the closing quotes. -/
inductive Walks (rule : ContentRule) (rest : Text) : Text → Prop
  | nil : Walks rule rest []
  | pair {d : Char} {u : Text} (hescapes : rule.escapes = true) (h : Walks rule rest u) :
      Walks rule rest ('\\' :: d :: u)
  | plain {c : Char} {u : Text} (hescape : ¬ (c = '\\' ∧ rule.escapes = true))
      (hline : ¬ (c = '\n' ∧ (!rule.multiline) = true))
      (htemplate : rule.templates = true → c = '$' → startsTemplate (u ++ rest).head? = false)
      (hclose : after? rule.delimiter (c :: (u ++ rest)) = none) (h : Walks rule rest u) :
      Walks rule rest (c :: u)

/-- The scan passes over it and goes on behind it. -/
lemma Walks.content? {rule : ContentRule} {rest body : Text} (h : Walks rule rest body) :
    content? rule (body ++ rest) = (content? rule rest).map (body ++ ·) := by
  induction h with
  | nil => simp
  | @pair d u hescapes h ih =>
    rw [List.cons_append, List.cons_append, Host.content?.eq_def]
    simp only [hescapes, and_self, if_true, ih, Option.map_map]
    rfl
  | @plain c u hescape hline htemplate hclose h ih =>
    have hopens : ¬ (rule.templates = true ∧ opensWith "$\x7b" (c :: (u ++ rest)) = true) := by
      rintro ⟨htemplates, hopens⟩
      obtain ⟨more, hmore⟩ := opensWith_iff.1 hopens
      have htext : '$' :: '\x7b' :: more = c :: (u ++ rest) := hmore
      obtain ⟨hc, htail⟩ := List.cons.inj htext
      have hstarts := htemplate htemplates hc.symm
      rw [← htail] at hstarts
      cases hstarts
    rw [List.cons_append, Host.content?.eq_def]
    simp only
    rw [if_neg hescape, if_neg hline, if_neg hopens, hclose]
    simp only [ih, Option.map_map]
    rfl

lemma after?_cons_eq_none {q c : Char} (h : c ≠ q) (more t : Text) :
    after? (q :: more) (c :: t) = none := by
  rw [after?, if_neg (Ne.symm h)]

/-- Where templates are stepped over, no template is found in it. -/
lemma Walks.templateFrom? {rule : ContentRule} {rest body : Text} (h : Walks rule rest body)
    (htemplates : rule.templates = true) (hescapes : rule.escapes = true) (offset : Nat) :
    templateFrom? false offset body = none := by
  induction h generalizing offset with
  | nil => rfl
  | @pair d u _ h ih =>
    rw [Host.templateFrom?, if_pos ⟨rfl, rfl⟩]
    exact ih _
  | @plain c u hescape hline htemplate hclose h ih =>
    cases u with
    | nil => rfl
    | cons d t =>
      have hdollar : ¬ (c = '$' ∧ startsTemplate (some d) = true) := by
        rintro ⟨hc, hd⟩
        have hnone : startsTemplate (some d) = false := htemplate htemplates hc
        rw [hnone] at hd
        cases hd
      rw [Host.templateFrom?, if_neg fun h => hescape ⟨h.1, hescapes⟩, if_neg hdollar]
      exact ih _

/-- A character that means nothing to the scan. -/
lemma Walks.cons {rule : ContentRule} {rest u : Text} {c q : Char} {more : Text}
    (h : Walks rule rest u) (hdelimiter : rule.delimiter = q :: more) (hquote : c ≠ q)
    (hc : c ∉ ['\\', '\n', '$']) : Walks rule rest (c :: u) := by
  simp only [List.mem_cons, List.not_mem_nil, or_false, not_or] at hc
  refine .plain (fun h => hc.1 h.1) (fun h => hc.2.1 h.1) (fun _ h => absurd h hc.2.2) ?_ h
  rw [hdelimiter]
  exact after?_cons_eq_none hquote more _

/-- Digits mean nothing to the scan. -/
lemma Walks.digits {rule : ContentRule} {rest u digits : Text} {q : Char} {more : Text}
    (h : Walks rule rest u) (hdelimiter : rule.delimiter = q :: more) (hq : q = '"' ∨ q = '\'')
    (hdigits : ∀ c ∈ digits, (hexDigit? c).isSome = true) : Walks rule rest (digits ++ u) := by
  induction digits with
  | nil => exact h
  | cons c digits ih =>
    rw [List.forall_mem_cons] at hdigits
    refine (ih hdigits.2).cons hdelimiter ?_ fun hc => ?_
    · rintro rfl
      rcases hq with rfl | rfl <;> exact absurd hdigits.1 (by decide)
    · simp only [List.mem_cons, List.not_mem_nil, or_false] at hc
      rcases hc with rfl | rfl | rfl <;> exact absurd hdigits.1 (by decide)

/-! ## Escaped texts -/

/-- An escaped text suits a rule for contents: what the one writes is what the other passes over. -/
structure Fits (written : EscapeRule) (rule : ContentRule) : Prop where
  quote : written.quote = '"' ∨ written.quote = '\''
  delimiter : ∃ more, rule.delimiter = written.quote :: more
  escapes : rule.escapes = true
  multiline : written.block = true → rule.multiline = true
  templates : rule.templates = true → written.language = .kotlin

namespace Fits

variable {written : EscapeRule} {rule : ContentRule} {rest u : Text} {c : Char}
  {after : Option Char}

/-- Units are passed over. -/
lemma walks_units (hfits : Fits written rule) (ns : List Nat) (h : Walks rule rest u) :
    Walks rule rest ((ns.flatMap fun n => '\\' :: 'u' :: hexPadded 4 n) ++ u) := by
  obtain ⟨more, hdelimiter⟩ := hfits.delimiter
  induction ns with
  | nil => exact h
  | cons n ns ih =>
    rw [List.flatMap_cons, List.append_assoc]
    exact .pair hfits.escapes (ih.digits hdelimiter hfits.quote fun _ => hexDigit?_of_mem_hexPadded)

lemma walks_spellCodePoint (hfits : Fits written rule) (language : Language) (c : Char)
    (h : Walks rule rest u) : Walks rule rest (spellCodePoint language c ++ u) := by
  obtain ⟨more, hdelimiter⟩ := hfits.delimiter
  have hletter : ∀ (d : Char) (width : Nat),
      Walks rule rest ('\\' :: d :: hexPadded width c.toNat ++ u) := fun d width =>
    .pair hfits.escapes (h.digits hdelimiter hfits.quote fun _ => hexDigit?_of_mem_hexPadded)
  cases language with
  | java => exact hfits.walks_units _ h
  | kotlin => exact hfits.walks_units _ h
  | python =>
    unfold spellCodePoint
    simp only
    split
    · exact hletter 'U' 8
    · exact hletter 'u' 4

lemma walks_spellControl (hfits : Fits written rule) (language : Language) (c : Char)
    (h : Walks rule rest u) : Walks rule rest (spellControl language c ++ u) := by
  obtain ⟨more, hdelimiter⟩ := hfits.delimiter
  have hletter : ∀ (d : Char) (width : Nat),
      Walks rule rest ('\\' :: d :: hexPadded width c.toNat ++ u) := fun d width =>
    .pair hfits.escapes (h.digits hdelimiter hfits.quote fun _ => hexDigit?_of_mem_hexPadded)
  cases language with
  | java => exact hletter 'u' 4
  | kotlin => exact hletter 'u' 4
  | python => exact hletter 'x' 2

/-- What a character other than the quote is written as is passed over, unless it is a dollar sign
that opens a template. -/
lemma walks_escapeChar (hfits : Fits written rule) (hc : c ≠ written.quote)
    (hdollar : rule.templates = true → startsTemplate after = false →
      startsTemplate (u ++ rest).head? = false) (h : Walks rule rest u) :
    Walks rule rest (escapeChar written c after ++ u) := by
  obtain ⟨more, hdelimiter⟩ := hfits.delimiter
  have hclose : ∀ t, after? rule.delimiter (c :: t) = none := fun t => by
    rw [hdelimiter]
    exact after?_cons_eq_none hc more t
  unfold escapeChar
  split_ifs with h₁ h₂ h₃ h₄ h₅ h₆ h₇ h₈ h₉
  · exact .pair hfits.escapes h
  · subst h₂
    exact .plain (by simp) (by simp [hfits.multiline h₃]) (fun _ h => absurd h (by decide))
      (hclose _) h
  · exact .pair hfits.escapes h
  · exact .pair hfits.escapes h
  · exact .pair hfits.escapes h
  · exact .pair hfits.escapes h
  · exact .pair hfits.escapes h
  · exact hfits.walks_spellControl _ c h
  · exact hfits.walks_spellCodePoint _ c h
  · refine .plain (fun h => h₁ h.1) (fun h => h₂ h.1) (fun ht hc' => hdollar ht ?_) (hclose _) h
    by_contra hstarts
    exact h₆ ⟨hc', hfits.templates ht, by simpa using hstarts⟩

end Fits

/-- An escape starts with a backslash or is the character itself. -/
lemma head?_escapeChar (written : EscapeRule) (c : Char) (after : Option Char) :
    (escapeChar written c after).head? = some '\\' ∨ escapeChar written c after = [c] := by
  unfold escapeChar
  split_ifs with h₁ h₂ h₃
  · exact .inl rfl
  · subst h₂
    exact .inr rfl
  · exact .inl rfl
  · exact .inl rfl
  · exact .inl rfl
  · exact .inl rfl
  · exact .inl rfl
  · refine .inl ?_
    cases written.language <;> rfl
  · refine .inl ?_
    cases written.language with
    | java => simp only [spellCodePoint, units]; split <;> rfl
    | kotlin => simp only [spellCodePoint, units]; split <;> rfl
    | python => simp only [spellCodePoint]; split <;> rfl
  · exact .inr rfl

/-- An escaped text starts with a backslash or as the text does. -/
lemma head?_escapeFrom (written : EscapeRule) (run : Nat) (t : Text) :
    (escapeFrom written run t).head? = some '\\' ∨
      (escapeFrom written run t).head? = t.head? := by
  cases t with
  | nil => exact .inr rfl
  | cons c t =>
    rw [escapeFrom]
    split
    · rename_i hc
      unfold escapeQuote
      split
      · exact .inl rfl
      · exact .inr (by simp [hc])
    · rcases head?_escapeChar written c t.head? with h | h
      · left
        rw [List.head?_append, h]
        rfl
      · right
        rw [h]
        rfl

/-- What does not start a template in a text does not start one where the text is escaped. -/
lemma startsTemplate_escapeFrom (written : EscapeRule) (run : Nat) {t : Text}
    (h : startsTemplate t.head? = false) :
    startsTemplate (escapeFrom written run t).head? = false := by
  rcases head?_escapeFrom written run t with hhead | hhead <;> rw [hhead]
  · rfl
  · exact h

/-- A text escaped for a line may stand in front of the closing quote.  The quote is escaped
wherever it is in the text, and a dollar sign does not start a template together with what is
written behind it or with the quote. -/
lemma walks_escape {written : EscapeRule} {rule : ContentRule} (hfits : Fits written rule)
    (hblock : written.block = false) (t rest : Text) :
    Walks rule (written.quote :: rest) (escape written t) := by
  have hquote : startsTemplate (some written.quote) = false := by
    rcases hfits.quote with h | h <;> rw [h] <;> decide +kernel
  have hfrom : ∀ run, Walks rule (written.quote :: rest) (escapeFrom written run t) := by
    induction t with
    | nil => exact fun _ => .nil
    | cons c t ih =>
      intro run
      rw [escapeFrom]
      split
      · have hescaped : escapeQuote written run t.head? = ['\\', written.quote] := by
          simp [escapeQuote, hblock]
        rw [hescaped]
        exact .pair hfits.escapes (ih _)
      · rename_i hc
        refine hfits.walks_escapeChar hc (fun _ hafter => ?_) (ih 0)
        rw [List.head?_append]
        cases hhead : (escapeFrom written 0 t).head? with
        | none => exact hquote
        | some d =>
          have hd := startsTemplate_escapeFrom written 0 hafter
          rwa [hhead] at hd
  exact hfrom 0

/-! ## Raw texts -/

/-- A raw text may stand in front of the closing quotes if these start nowhere in it.  Where the
scanner passes pairs behind a backslash, the last backslash of the text must not take a quote with
it.  Such a pair is two characters, so the induction is on the length. -/
lemma walks_raw {rule : ContentRule} (htemplates : rule.templates = false) {rest t : Text}
    (hline : rule.multiline = true ∨ '\n' ∉ t)
    (hclose : ∀ c u, c :: u <:+ t → after? rule.delimiter (c :: (u ++ rest)) = none)
    (hlast : rule.escapes = true → t.getLast? ≠ some '\\') : Walks rule rest t := by
  induction hn : t.length using Nat.strongRecOn generalizing t with
  | ind n ih =>
    match t with
    | [] => exact .nil
    | c :: u =>
      simp only [List.length_cons] at hn
      by_cases hc : c = '\\' ∧ rule.escapes = true
      · obtain ⟨rfl, hescapes⟩ := hc
        match u with
        | [] => exact absurd rfl (hlast hescapes)
        | d :: v =>
          simp only [List.length_cons] at hn
          refine .pair hescapes (ih v.length (by omega) ?_ ?_ ?_ rfl)
          · exact hline.imp id fun h hv => h (by simp [hv])
          · intro e w hw
            exact hclose e w (hw.trans ⟨['\\', d], rfl⟩)
          · intro hescapes hv
            refine hlast hescapes ?_
            rw [List.getLast?_cons, List.getLast?_cons, hv]
            rfl
      · have hnewline : ¬ (c = '\n' ∧ (!rule.multiline) = true) := by
          rintro ⟨rfl, hsingle⟩
          rcases hline with hmultiline | hline
          · simp [hmultiline] at hsingle
          · exact hline (List.mem_cons_self ..)
        refine .plain hc hnewline (by simp [htemplates]) (hclose c u (List.suffix_refl _))
          (ih u.length (by omega) ?_ ?_ ?_ rfl)
        · exact hline.imp id fun h hu => h (List.mem_cons_of_mem _ hu)
        · intro e w hw
          exact hclose e w (hw.trans (List.suffix_cons c u))
        · intro hescapes hu
          refine hlast hescapes ?_
          rw [List.getLast?_cons, hu]
          rfl

/-! ## Strings -/

/-- Letters and quotes that a string may be written with.  Letters of formatted strings and of bytes
are not among them, for such strings are never decoded. -/
structure Quotes (language : Language) (marker delimiter : Text) : Prop where
  letters : ∀ c ∈ marker, c ∈ "rRuU".toList
  short : marker.length ≤ 2
  python : language ≠ .python → marker = []
  delimiter : ∃ q, (q = '"' ∨ language = .python ∧ q = '\'') ∧
    (delimiter = [q] ∨ delimiter = [q, q, q])

namespace Quotes

variable {language : Language} {marker delimiter : Text}

/-- The quote character. -/
lemma quote_cases (h : Quotes language marker delimiter) :
    delimiter.head? = some '"' ∨ language = .python ∧ delimiter.head? = some '\'' := by
  obtain ⟨q, hq | ⟨hpython, hq⟩, hdelimiter⟩ := h.delimiter
  · left
    rcases hdelimiter with rfl | rfl <;> rw [hq] <;> rfl
  · right
    refine ⟨hpython, ?_⟩
    rcases hdelimiter with rfl | rfl <;> rw [hq] <;> rfl

/-- The letters are found in front of the quotes.  Only Python has any: at most two are looked at,
and the quote behind them is not a letter itself. -/
lemma markerOf_eq (h : Quotes language marker delimiter) {before : Option Char}
    (hbefore : before.any isHostWordChar = false) (t : Text) :
    markerOf language before (marker ++ (delimiter ++ t)) = marker := by
  by_cases hlanguage : language = .python
  · subst hlanguage
    obtain ⟨c, more, hcons, hc⟩ : ∃ c more, delimiter = c :: more ∧ (c = '"' ∨ c = '\'') := by
      obtain ⟨q, hq, hdelimiter⟩ := h.delimiter
      have hquote : q = '"' ∨ q = '\'' := hq.imp id And.right
      rcases hdelimiter with rfl | rfl
      · exact ⟨q, _, rfl, hquote⟩
      · exact ⟨q, _, rfl, hquote⟩
    have hletter : ∀ d ∈ marker, "rRbBuUfF".toList.contains d = true := by
      intro d hd
      have hmem := h.letters d hd
      revert hmem
      simp
      tauto
    have hstop : "rRbBuUfF".toList.contains c = false := by
      rcases hc with rfl | rfl <;> decide
    have hletters : ((marker ++ (delimiter ++ t)).take 2).takeWhile
        ("rRbBuUfF".toList.contains ·) = marker := by
      rw [List.take_append, List.takeWhile_append_of_pos]
      · rw [List.take_of_length_le h.short]
        have hrest : ((delimiter ++ t).take (2 - marker.length)).takeWhile
            ("rRbBuUfF".toList.contains ·) = [] := by
          rw [hcons]
          cases 2 - marker.length with
          | zero => rfl
          | succ n =>
            rw [List.cons_append, List.take_succ_cons,
              List.takeWhile_cons_of_neg (by rw [hstop]; exact Bool.false_ne_true)]
        rw [hrest, List.append_nil]
      · exact fun d hd => hletter d (List.mem_of_mem_take hd)
    have hdrop : (marker ++ (delimiter ++ t)).drop marker.length = c :: (more ++ t) := by
      rw [hcons]
      exact List.drop_left
    simp only [markerOf, pythonMarker, hbefore, hletters, hdrop, if_pos hc]
    rfl
  · rw [h.python hlanguage]
    cases language <;> first | rfl | exact absurd rfl hlanguage

/-- One quote is taken for one, unless two more follow. -/
lemma delimiter?_single {q : Char} (hq : q = '"' ∨ language = .python ∧ q = '\'') {t : Text}
    (ht : ¬ [q, q] <+: t) : delimiter? language (q :: t) = some [q] := by
  have htriple : ∀ d : Char, ¬ opensWith [d, d, d] (q :: t) = true := by
    intro d hopens
    obtain ⟨rest, hrest⟩ := opensWith_iff.1 hopens
    obtain ⟨rfl, htail⟩ := List.cons.inj hrest
    exact ht ⟨rest, htail⟩
  have h₁ : ¬ opensWith "\"\"\"" (q :: t) = true := htriple '"'
  have h₂ : ¬ opensWith "'''" (q :: t) = true := htriple '\''
  unfold delimiter?
  rcases hq with rfl | ⟨rfl, rfl⟩
  · have h₃ : opensWith "\"" ('"' :: t) = true := opensWith_iff.2 ⟨t, rfl⟩
    rw [if_neg h₁, if_neg (fun h => h₂ h.2), if_pos h₃]
    rfl
  · have h₃ : opensWith "'" ('\'' :: t) = true := opensWith_iff.2 ⟨t, rfl⟩
    rw [if_neg h₁, if_neg (fun h => h₂ h.2), if_neg (by simp [opensWith, after?]),
      if_pos ⟨rfl, h₃⟩]
    rfl

lemma delimiter?_triple {q : Char} (hq : q = '"' ∨ language = .python ∧ q = '\'') (t : Text) :
    delimiter? language ([q, q, q] ++ t) = some [q, q, q] := by
  unfold delimiter?
  rcases hq with rfl | ⟨rfl, rfl⟩
  · exact if_pos rfl
  · rw [if_neg (by simp [opensWith, after?]), if_pos ⟨rfl, rfl⟩]
    rfl

end Quotes

/-- **A string around a content that is read whole is read as it was written.**  The letters in
front and the quotes are found as they stand, so all that a literal has to see to is its content. -/
theorem quoted?_of_content? {language : Language} {marker delimiter body rest : Text}
    (hquotes : Quotes language marker delimiter)
    (hbody : content? (.of language delimiter) (body ++ (delimiter ++ rest)) = some body)
    (hopen : delimiter? language (delimiter ++ (body ++ (delimiter ++ rest))) = some delimiter)
    {before : Option Char} (hbefore : before.any isHostWordChar = false) :
    quoted? language before (marker ++ (delimiter ++ (body ++ (delimiter ++ rest)))) =
      some (some ⟨marker, delimiter, body⟩) := by
  have hdrop : (marker ++ (delimiter ++ (body ++ (delimiter ++ rest)))).drop marker.length =
      delimiter ++ (body ++ (delimiter ++ rest)) := List.drop_left
  have hinside : (delimiter ++ (body ++ (delimiter ++ rest))).drop delimiter.length =
      body ++ (delimiter ++ rest) := List.drop_left
  simp only [quoted?, hquotes.markerOf_eq hbefore, hdrop, hopen, Option.map_some, hinside, hbody]

end SqlInlay.Host
