import Mathlib.Algebra.Group.Nat.Defs
import Mathlib.Data.List.Basic
import Mathlib.Tactic.Common
import SqlInlay.Host.Escape

/-!
# Escapes are read back

What `escape` writes, `unescape` reads: between quotes a text comes back as it was, in a block as
well as on a line, and in each of the three languages.  This is the core of every round trip of a
literal whose quotes allow escapes.

**Reading** is by escapes of any length, so it is not a function of characters one by one.  `Reads`
says what a text with escapes stands for, whatever the offset at which it starts, and is built from
the end: `Reads.plain` puts a character in front, `Reads.escaped` a whole escape.  Nothing behind an
escape has a say in what the escape is, for all of them are read by a letter and a number of digits
that is known.

**Writing** is by characters, each with what stands behind it.  So there is one lemma for each way
in which a character may be written, and it says that the character is read in front of whatever is
read behind it.

* `reads_spellCodePoint` is about characters beyond ASCII.  Where a language has escapes of UTF-16
  units only, a character beyond the first plane takes two of them, which are read as one character
  (`exists_units`).
* `reads_spellControl` is about control characters, which Python spells with two digits.
* `reads_escapeChar` puts all characters but the quote together, and `reads_escapeQuote` does the
  quote, which is escaped or not by how many quotes stand in a row.

`reads_escape` is the induction over the text.
-/

namespace SqlInlay.Host

open SqlInlay.Text

/-! ## Hexadecimal digits

Numbers are written in digits by the library and padded with zeros in front.  `hexFrom?_hexPadded`
is all that escapes need of them: a number that fits the width is read back, and nothing behind its
digits is taken for one.
-/

lemma hexDigit?_digitChar : ∀ n < 16, hexDigit? (Nat.digitChar n) = some n := by decide

lemma hexText_eq (n : Nat) :
    hexText n = if n < 16 then [n.digitChar] else hexText (n / 16) ++ [(n % 16).digitChar] :=
  Nat.toDigits_eq_if (by decide)

/-- Every digit of a number is one. -/
lemma hexDigit?_of_mem_hexText {n : Nat} {c : Char} (h : c ∈ hexText n) :
    (hexDigit? c).isSome = true := by
  induction n using Nat.strongRecOn with
  | ind n ih =>
    rw [hexText_eq] at h
    split at h
    · rename_i hn
      obtain rfl := List.mem_singleton.1 h
      rw [hexDigit?_digitChar n hn]
      rfl
    · rename_i hn
      rcases List.mem_append.1 h with h | h
      · exact ih (n / 16) (by omega) h
      · obtain rfl := List.mem_singleton.1 h
        rw [hexDigit?_digitChar _ (Nat.mod_lt n (by decide))]
        rfl

/-- Digits are read one part after the other. -/
lemma hexFrom?_append (value k : Nat) (s t : Text) :
    hexFrom? value (s.length + k) (s ++ t) =
      (hexFrom? value s.length s).bind fun read => hexFrom? read k t := by
  induction s generalizing value with
  | nil => simp [hexFrom?]
  | cons c s ih =>
    rw [List.length_cons, Nat.succ_add, List.cons_append, hexFrom?, hexFrom?]
    cases hexDigit? c with
    | none => rfl
    | some digit => exact ih _

lemma hexFrom?_hexText (value n : Nat) :
    hexFrom? value (hexText n).length (hexText n) = some (value * 16 ^ (hexText n).length + n) := by
  induction n using Nat.strongRecOn with
  | ind n ih =>
    rw [hexText_eq]
    split
    · rename_i hn
      simp [hexFrom?, hexDigit?_digitChar n hn]
    · rename_i hn
      rw [List.length_append, List.length_singleton, hexFrom?_append, ih (n / 16) (by omega)]
      have hdigit := hexDigit?_digitChar (n % 16) (Nat.mod_lt n (by decide))
      simp only [Option.bind_some, hexFrom?, hdigit, Option.some.injEq]
      rw [Nat.pow_succ, ← Nat.mul_assoc, Nat.add_mul]
      omega

lemma hexFrom?_zeros (k : Nat) : hexFrom? 0 k (List.replicate k '0') = some 0 := by
  induction k with
  | zero => rfl
  | succ k ih => exact ih

lemma length_hexText_le {width n : Nat} (hwidth : 0 < width) (h : n < 16 ^ width) :
    (hexText n).length ≤ width :=
  (Nat.length_toDigits_le_iff (by decide) hwidth).2 h

lemma length_hexPadded {width n : Nat} (hwidth : 0 < width) (h : n < 16 ^ width) :
    (hexPadded width n).length = width := by
  have := length_hexText_le hwidth h
  simp only [hexPadded, List.length_append, List.length_replicate]
  omega

lemma hexDigit?_of_mem_hexPadded {width n : Nat} {c : Char} (h : c ∈ hexPadded width n) :
    (hexDigit? c).isSome = true := by
  rcases List.mem_append.1 h with h | h
  · rw [List.eq_of_mem_replicate h]
    rfl
  · exact hexDigit?_of_mem_hexText h

/-- A number that fits is read back from its padded digits. -/
lemma hexFrom?_hexPadded {width n : Nat} (hwidth : 0 < width) (h : n < 16 ^ width) (t : Text) :
    hexFrom? 0 width (hexPadded width n ++ t) = some n := by
  have hle := length_hexText_le hwidth h
  have hpadded : hexFrom? 0 width (hexPadded width n) = some n := by
    have hsplit := hexFrom?_append 0 (hexText n).length
      (List.replicate (width - (hexText n).length) '0') (hexText n)
    rw [List.length_replicate, Nat.sub_add_cancel hle, hexFrom?_zeros, Option.bind_some,
      hexFrom?_hexText] at hsplit
    simpa [hexPadded] using hsplit
  have hsplit := hexFrom?_append 0 0 (hexPadded width n) t
  rw [length_hexPadded hwidth h, Nat.add_zero, hpadded] at hsplit
  exact hsplit

/-! ## Reading -/

/-- A text with escapes stands for another one.  The offset is left open, for it only plays a part
in where an escape at fault would be reported. -/
def Reads (language : Language) (written read : Text) : Prop :=
  ∀ offset, unescape language offset written = .ok read

namespace Reads

variable {language : Language} {u s : Text}

lemma nil (language : Language) : Reads language [] [] := fun _ => by simp [unescape]

lemma plain {c : Char} (hc : c ≠ '\\') (h : Reads language u s) :
    Reads language (c :: u) (c :: s) := by
  intro offset
  rw [unescape, if_neg hc, h]
  rfl

/-- An escape is read as its image. -/
lemma escaped (w image : Text) (hw : readEscape language (w ++ u) = .ok (image, w.length))
    (h : Reads language u s) : Reads language ('\\' :: (w ++ u)) (image ++ s) := by
  intro offset
  have hdrop : (w ++ u).drop w.length = u := List.drop_left
  simp only [unescape, if_true, hw, hdrop, h _]
  rfl

end Reads

/-! ## Escapes that are written

Each lemma takes what is read behind the escape as a hypothesis, so that they can be put one in
front of the other.
-/

lemma codePoint_toNat (c : Char) : codePoint c.toNat = .ok [c] := by
  have hvalid : c.toNat.isValidChar := c.valid
  rw [codePoint, if_pos hvalid, Char.ofNat_toNat]

lemma toNat_lt (c : Char) : c.toNat < 0x110000 := by
  have hvalid : c.toNat.isValidChar := c.valid
  rcases hvalid with h | h <;> omega

/-- Digits do not start with another letter of the escape. -/
lemma repeatedU_hexPadded {width n : Nat} (hwidth : 0 < width) (h : n < 16 ^ width)
    (repeats : Bool) (t : Text) : repeatedU repeats (hexPadded width n ++ t) = 0 := by
  unfold repeatedU
  split
  · obtain ⟨c, digits, hdigits⟩ := List.exists_cons_of_length_pos
      (by rw [length_hexPadded hwidth h]; exact hwidth : 0 < (hexPadded width n).length)
    have hc : (hexDigit? c).isSome = true :=
      hexDigit?_of_mem_hexPadded (hdigits ▸ List.mem_cons_self ..)
    have hu : c ≠ 'u' := by
      rintro rfl
      exact absurd hc (by decide)
    simp [hdigits, hu]
  · rfl

/-- A character of the first plane, spelled by one unit. -/
lemma unitEscape_hexPadded {c : Char} (h : c.toNat < 0x10000) (repeats : Bool) (t : Text) :
    unitEscape repeats (hexPadded 4 c.toNat ++ t) = .ok ([c], 5) := by
  have hfits : c.toNat < 16 ^ 4 := by omega
  have hsurrogate : ¬ (0xD800 ≤ c.toNat ∧ c.toNat < 0xDC00) := by
    have hvalid : c.toNat.isValidChar := c.valid
    rcases hvalid with h | h <;> omega
  simp only [unitEscape, repeatedU_hexPadded (by decide) hfits, List.drop_zero, hex,
    hexFrom?_hexPadded (by decide) hfits, ok_bind]
  rw [if_neg hsurrogate, codePoint_toNat, ok_bind, Nat.zero_add]
  rfl

/-- A unit behind the first one. -/
lemma unitAt?_hexPadded {n : Nat} (h : n < 16 ^ 4) (repeats : Bool) (t : Text) :
    unitAt? repeats ('u' :: (hexPadded 4 n ++ t)) = some (n, 5) := by
  simp only [unitAt?, repeatedU_hexPadded (by decide) h, List.drop_zero,
    hexFrom?_hexPadded (by decide) h, Option.map_some]

/-- Two units that are a pair. -/
lemma unitEscape_pair {high low : Nat} (hhigh : 0xD800 ≤ high ∧ high < 0xDC00)
    (hlow : 0xDC00 ≤ low ∧ low < 0xE000) {image : Text}
    (himage : codePoint (surrogatePair high low) = .ok image) (repeats : Bool) (t : Text) :
    unitEscape repeats (hexPadded 4 high ++ '\\' :: 'u' :: (hexPadded 4 low ++ t)) =
      .ok (image, 11) := by
  have hhighFits : high < 16 ^ 4 := by omega
  have hlowFits : low < 16 ^ 4 := by omega
  have hdrop : ∀ u : Text, (hexPadded 4 high ++ u).drop 4 = u := by
    intro u
    have hdigits : (hexPadded 4 high ++ u).drop (hexPadded 4 high).length = u := List.drop_left
    rwa [length_hexPadded (by decide) hhighFits] at hdigits
  simp only [unitEscape, repeatedU_hexPadded (by decide) hhighFits, List.drop_zero, Nat.zero_add,
    hex, hexFrom?_hexPadded (by decide) hhighFits, ok_bind, hdrop, unitAt?_hexPadded hlowFits]
  rw [if_pos hhigh, if_pos hlow, himage, ok_bind]
  rfl

/-- A character beyond the first plane, spelled by two units. -/
lemma unitEscape_surrogates {c : Char} (h : 0x10000 ≤ c.toNat) (repeats : Bool) (t : Text) :
    unitEscape repeats (hexPadded 4 (0xD800 + (c.toNat - 0x10000) / 0x400) ++
      '\\' :: 'u' :: (hexPadded 4 (0xDC00 + (c.toNat - 0x10000) % 0x400) ++ t)) =
      .ok ([c], 11) := by
  have hlt := toNat_lt c
  have hpair : surrogatePair (0xD800 + (c.toNat - 0x10000) / 0x400)
      (0xDC00 + (c.toNat - 0x10000) % 0x400) = c.toNat := by
    unfold surrogatePair
    omega
  exact unitEscape_pair (by omega) (by omega) (by rw [hpair, codePoint_toNat]) repeats t

/-- An escape of digits alone. -/
lemma hexEscape_hexPadded {width : Nat} {c : Char} (hwidth : 0 < width) (h : c.toNat < 16 ^ width)
    (t : Text) : hexEscape width (hexPadded width c.toNat ++ t) = .ok ([c], width + 1) := by
  simp only [hexEscape, hex, hexFrom?_hexPadded hwidth h, ok_bind, codePoint_toNat]
  rfl

/-- The letter and the digits of an escape of one unit. -/
lemma reads_unit {language : Language} (hlanguage : language ≠ .python) {c : Char}
    (hc : c.toNat < 0x10000) {u s : Text} (h : Reads language u s) :
    Reads language ('\\' :: 'u' :: (hexPadded 4 c.toNat ++ u)) (c :: s) := by
  have hlength : ('u' :: hexPadded 4 c.toNat).length = 5 := by
    rw [List.length_cons, length_hexPadded (by decide) (by omega)]
  refine h.escaped ('u' :: hexPadded 4 c.toNat) [c] ?_
  rw [hlength]
  cases language with
  | python => exact absurd rfl hlanguage
  | java => exact unitEscape_hexPadded hc true u
  | kotlin => exact unitEscape_hexPadded hc false u

/-- Digits behind a letter of Python. -/
lemma reads_hex {letter : Char} {width : Nat} {c : Char}
    (hletter : ∀ t, readPython letter t = hexEscape width t) (hwidth : 0 < width)
    (hc : c.toNat < 16 ^ width) {u s : Text} (h : Reads .python u s) :
    Reads .python ('\\' :: letter :: (hexPadded width c.toNat ++ u)) (c :: s) := by
  have hlength : (letter :: hexPadded width c.toNat).length = width + 1 := by
    rw [List.length_cons, length_hexPadded hwidth hc]
  refine h.escaped (letter :: hexPadded width c.toNat) [c] ?_
  rw [hlength]
  exact (hletter _).trans (hexEscape_hexPadded hwidth hc u)

/-- Two units that are read as one character. -/
lemma reads_units {language : Language} (hlanguage : language ≠ .python) {c : Char}
    {high low : Nat} (hhigh : high < 16 ^ 4) (hlow : low < 16 ^ 4)
    (hunits : ∀ (repeats : Bool) (t : Text), unitEscape repeats
      (hexPadded 4 high ++ '\\' :: 'u' :: (hexPadded 4 low ++ t)) = .ok ([c], 11))
    {u s : Text} (h : Reads language u s) :
    Reads language ('\\' :: 'u' :: (hexPadded 4 high ++
      '\\' :: 'u' :: (hexPadded 4 low ++ u))) (c :: s) := by
  have hlength : ('u' :: (hexPadded 4 high ++ '\\' :: 'u' :: hexPadded 4 low)).length = 11 := by
    simp only [List.length_cons, List.length_append, length_hexPadded (by decide) hhigh,
      length_hexPadded (by decide) hlow]
  have hread := h.escaped ('u' :: (hexPadded 4 high ++ '\\' :: 'u' :: hexPadded 4 low)) [c]
    (by
      rw [hlength]
      cases language with
      | python => exact absurd rfl hlanguage
      | java => simpa [readEscape, readJava] using hunits true u
      | kotlin => simpa [readEscape, readKotlin] using hunits false u)
  simpa using hread

/-- A character beyond the first plane has two units, which are read as the character.  The high one
is in the range that asks for a second half, and the low one is a second half. -/
lemma exists_units {c : Char} (hc : 0x10000 ≤ c.toNat) :
    ∃ high low, units c.toNat = [high, low] ∧ high < 16 ^ 4 ∧ low < 16 ^ 4 ∧
      ∀ (repeats : Bool) (t : Text), unitEscape repeats
        (hexPadded 4 high ++ '\\' :: 'u' :: (hexPadded 4 low ++ t)) = .ok ([c], 11) := by
  have hlt := toNat_lt c
  exact ⟨_, _, if_neg (Nat.not_lt.2 hc), by omega, by omega, unitEscape_surrogates hc⟩

/-- The units of a character are read back. -/
lemma reads_flatMap_units {language : Language} (hlanguage : language ≠ .python) (c : Char)
    {u s : Text} (h : Reads language u s) :
    Reads language (((units c.toNat).flatMap fun n => '\\' :: 'u' :: hexPadded 4 n) ++ u)
      (c :: s) := by
  by_cases hc : c.toNat < 0x10000
  · have hunits : units c.toNat = [c.toNat] := if_pos hc
    rw [hunits]
    simp only [List.flatMap_cons, List.flatMap_nil, List.append_nil, List.cons_append]
    exact reads_unit hlanguage hc h
  · obtain ⟨high, low, hunits, hhigh, hlow, hread⟩ := exists_units (Nat.le_of_not_lt hc)
    rw [hunits]
    simp only [List.flatMap_cons, List.flatMap_nil, List.append_nil, List.cons_append,
      List.append_assoc]
    exact reads_units hlanguage hhigh hlow hread h

/-- A character spelled by its code point is read back. -/
lemma reads_spellCodePoint (language : Language) (c : Char) {u s : Text}
    (h : Reads language u s) : Reads language (spellCodePoint language c ++ u) (c :: s) := by
  have hlt := toNat_lt c
  cases language with
  | java => exact reads_flatMap_units (by decide) c h
  | kotlin => exact reads_flatMap_units (by decide) c h
  | python =>
    unfold spellCodePoint
    simp only
    split
    · exact reads_hex (fun _ => rfl) (by decide) (by omega) h
    · exact reads_hex (fun _ => rfl) (by decide) (by omega) h

/-- A control character is read back from its code. -/
lemma reads_spellControl (language : Language) {c : Char} (hc : isControl c = true) {u s : Text}
    (h : Reads language u s) : Reads language (spellControl language c ++ u) (c :: s) := by
  have hlt : c.toNat < 0xA0 := by
    simp only [isControl, Bool.or_eq_true, Bool.and_eq_true, decide_eq_true_eq] at hc
    omega
  by_cases hlanguage : language = .python
  · subst hlanguage
    exact reads_hex (fun _ => rfl) (by decide) (by omega) h
  · have hspelled : spellControl language c = '\\' :: 'u' :: hexPadded 4 c.toNat := by
      cases language <;> first | rfl | exact absurd rfl hlanguage
    rw [hspelled]
    exact reads_unit hlanguage (by omega) h

/-- A letter behind a backslash. -/
lemma reads_letter {language : Language} {d c : Char} {u s : Text}
    (hd : readEscape language (d :: u) = .ok ([c], 1)) (h : Reads language u s) :
    Reads language ('\\' :: d :: u) (c :: s) :=
  h.escaped [d] [c] hd

/-- A character other than the quote is read back, whichever way it is written.  The cases are those
of `escapeChar`, in its order. -/
lemma reads_escapeChar (rule : EscapeRule) (c : Char) (after : Option Char) {u s : Text}
    (h : Reads rule.language u s) :
    Reads rule.language (escapeChar rule c after ++ u) (c :: s) := by
  unfold escapeChar
  split_ifs with h₁ h₂ h₃ h₄ h₅ h₆ h₇ h₈ h₉
  · subst h₁
    exact reads_letter (by cases rule.language <;> rfl) h
  · subst h₂
    exact h.plain (by decide)
  · subst h₂
    exact reads_letter (by cases rule.language <;> rfl) h
  · subst h₄
    exact reads_letter (by cases rule.language <;> rfl) h
  · subst h₅
    exact reads_letter (by cases rule.language <;> rfl) h
  · obtain ⟨rfl, hkotlin, -⟩ := h₆
    exact reads_letter (by rw [hkotlin]; rfl) h
  · obtain ⟨rfl, -, hjava, -⟩ := h₇
    exact reads_letter (by rw [hjava]; rfl) h
  · exact reads_spellControl rule.language h₈ h
  · exact reads_spellCodePoint rule.language c h
  · exact h.plain h₁

/-- Quotes that are escaped are read back in every language. -/
lemma readEscape_quote (language : Language) {quote : Char} (h : quote = '"' ∨ quote = '\'')
    (u : Text) : readEscape language (quote :: u) = .ok ([quote], 1) := by
  rcases h with rfl | rfl <;> cases language <;> rfl

lemma reads_escapeQuote (rule : EscapeRule) (hquote : rule.quote = '"' ∨ rule.quote = '\'')
    (run : Nat) (after : Option Char) {u s : Text} (h : Reads rule.language u s) :
    Reads rule.language (escapeQuote rule run after ++ u) (rule.quote :: s) := by
  unfold escapeQuote
  split
  · exact reads_letter (readEscape_quote _ hquote _) h
  · refine h.plain ?_
    rcases hquote with hquote | hquote <;> rw [hquote] <;> decide

/-- **What is escaped is read back**, in every language, between quotes of either kind, on a line or
in a block. -/
theorem reads_escape (rule : EscapeRule) (hquote : rule.quote = '"' ∨ rule.quote = '\'')
    (t : Text) : Reads rule.language (escape rule t) t := by
  have hfrom : ∀ run, Reads rule.language (escapeFrom rule run t) t := by
    induction t with
    | nil => exact fun _ => .nil _
    | cons c t ih =>
      intro run
      rw [escapeFrom]
      split
      · rename_i hc
        subst hc
        exact reads_escapeQuote rule hquote run t.head? (ih _)
      · exact reads_escapeChar rule c t.head? (ih 0)
  exact hfrom 0

end SqlInlay.Host
