import SqlInlay.Proofs.Sql.Lexemes

/-!
# Recognizers in front of another rest

A recognizer looks at all that is left of a query, but what it finds rests on little of it: the
lexeme and, at most, the character behind it.  The lemmas here say so of each recognizer.  If it
finds all of `v` in front of `r`, it finds all of `v` in front of `R`, unless `R` starts with a
character that carries the lexeme on.

They come in two forms.  Where something closes the lexeme, as with quotes and comments, the rest
plays no part at all (`through?_append`, `throughDoubledQuote?_append`).  Where it goes on as long
as it can, the first character of the rest has to be excluded (`runLength_append`).

**Numbers** are the hard case, for they are read in four stages and given up if a word follows.  For
each stage there are two lemmas: what it finds within a text does not depend on the rest, and in
front of a rest that does not carry it on it stays within the text.  `number?_append` puts them
together, and `number?_append_eq_none` says the same of what is no number.
-/

namespace SqlInlay.Sql

open SqlInlay.Text

/-! ## Recognizers -/

section Recognizers

variable {v r R : Text}

lemma runLength_append {p : Char → Bool} (hv : ∀ c ∈ v, p c = true)
    (hR : ∀ d ∈ R.head?, p d = false) : runLength p (v ++ R) = v.length := by
  have hrest : R.takeWhile p = [] := by
    cases R with
    | nil => rfl
    | cons d R => simp [hR d rfl]
  rw [runLength, List.takeWhile_append_of_pos hv, hrest, List.append_nil]

lemma of_runLength_append {p : Char → Bool} (h : runLength p (v ++ r) = v.length) :
    (∀ c ∈ v, p c = true) ∧ ∀ d ∈ r.head?, p d = false := by
  induction v with
  | nil =>
    refine ⟨by simp, fun d hd => ?_⟩
    cases r with
    | nil => cases hd
    | cons e r =>
      obtain rfl : e = d := by simpa using hd
      by_contra hp
      simp [runLength, hp] at h
  | cons c v ih =>
    by_cases hc : p c = true
    · have hv := ih (by simpa [runLength, hc] using h)
      exact ⟨List.forall_mem_cons.2 ⟨hc, hv.1⟩, hv.2⟩
    · simp [runLength, hc] at h

/-- An occurrence that lies in front of the rest does not depend on it.  Nor is there an earlier one
that the other rest would make: such an occurrence would lie in front of the rest as well. -/
lemma find?_append {needle : Text} {m : Nat} (h : find? needle (v ++ r) = some m)
    (hle : m + needle.length ≤ v.length) : find? needle (v ++ R) = some m := by
  have hopens : ∀ s : Text, needle.length ≤ s.length → ∀ t t' : Text,
      opensWith needle (s ++ t) = true → opensWith needle (s ++ t') = true := by
    intro s hs t t' hopens
    have hs := List.prefix_of_prefix_length_le (opensWith_iff.1 hopens) (List.prefix_append s t) hs
    exact opensWith_iff.2 (hs.trans (List.prefix_append s t'))
  induction v generalizing m with
  | nil =>
    obtain ⟨rfl, hneedle⟩ : m = 0 ∧ needle = [] := by simpa using hle
    subst hneedle
    cases R <;> simp [find?, opensWith, after?]
  | cons c v ih =>
    simp only [List.cons_append, find?] at h ⊢
    simp only [List.length_cons] at hle
    have hlength : needle.length ≤ (c :: v).length := by simp; omega
    split at h
    · rename_i hr
      rw [if_pos (by exact hopens (c :: v) hlength r R hr)]
      exact h
    · rename_i hr
      obtain ⟨k, hk, rfl⟩ := Option.map_eq_some_iff.1 h
      rw [if_neg (by exact fun hR => hr (hopens (c :: v) hlength R r hR)), ih hk (by omega)]
      rfl

lemma through?_append {closing : Text} (h : through? closing (v ++ r) = some v.length) :
    through? closing (v ++ R) = some v.length := by
  obtain ⟨m, hm, hlength⟩ := Option.map_eq_some_iff.1 h
  rw [through?, find?_append hm hlength.le]
  exact congrArg some hlength

lemma throughDoubledQuote?_pos {quote : Char} {t : Text} {n : Nat}
    (h : throughDoubledQuote? quote t = some n) : 0 < n := by
  have hlast := getLast?_take_throughDoubledQuote? h
  rcases n with _ | n
  · simp at hlast
  · exact Nat.succ_pos n

lemma throughDoubledQuote?_of_ne {quote c : Char} (hc : c ≠ quote) (t : Text) :
    throughDoubledQuote? quote (c :: t) = (throughDoubledQuote? quote t).map (· + 1) := by
  cases t <;> simp [throughDoubledQuote?, hc]

/-- A quoted text does not depend on what is behind it, unless that is another quote, which would
double the closing one. -/
lemma throughDoubledQuote?_append {quote : Char} {v : Text}
    (h : throughDoubledQuote? quote (v ++ r) = some v.length) (hR : ∀ d ∈ R.head?, d ≠ quote) :
    throughDoubledQuote? quote (v ++ R) = some v.length := by
  match v with
  | [] => exact absurd (throughDoubledQuote?_pos h) (by simp)
  | [c] =>
    by_cases hc : c = quote
    · cases R with
      | nil => simp [throughDoubledQuote?, hc]
      | cons d R => simp [throughDoubledQuote?, hc, hR d rfl]
    · rw [List.singleton_append, throughDoubledQuote?_of_ne hc] at h
      obtain ⟨m, hm, hlength⟩ := Option.map_eq_some_iff.1 h
      have hpos := throughDoubledQuote?_pos hm
      simp at hlength
      omega
  | c :: d :: v =>
    by_cases hc : c = quote
    · simp only [List.cons_append, throughDoubledQuote?, hc, if_true] at h ⊢
      split at h
      · rename_i hd
        obtain ⟨m, hm, hlength⟩ := Option.map_eq_some_iff.1 h
        obtain rfl : m = v.length := by simpa using hlength
        rw [if_pos hd, throughDoubledQuote?_append hm hR]
        rfl
      · simp at h
    · rw [List.cons_append, throughDoubledQuote?_of_ne hc] at h ⊢
      obtain ⟨m, hm, hlength⟩ := Option.map_eq_some_iff.1 h
      obtain rfl : m = (d :: v).length := by simpa using hlength
      rw [throughDoubledQuote?_append hm hR]
      rfl

/-- An expression is its opening and what goes through the closing brace. -/
lemma exists_of_expression? (h : expression? (v ++ r) = some v.length) :
    ∃ w, v = "#\x7b".toList ++ w ∧ through? "\x7d" (w ++ r) = some w.length := by
  unfold expression? at h
  split at h
  · rename_i rest hafter
    obtain ⟨k, hk, hlength⟩ := Option.map_eq_some_iff.1 h
    have hsplit := eq_append_of_after? hafter
    obtain ⟨w, rfl⟩ : "#\x7b".toList <+: v := by
      refine List.prefix_of_prefix_length_le ⟨rest, hsplit.symm⟩ (List.prefix_append v r) ?_
      simp [← hlength]
    rw [List.append_assoc] at hsplit
    obtain rfl := List.append_cancel_left hsplit
    obtain rfl : k = w.length := by simpa using hlength
    exact ⟨w, rfl, hk⟩
  · cases h

lemma expression?_append (h : expression? (v ++ r) = some v.length) :
    expression? (v ++ R) = some v.length := by
  obtain ⟨w, rfl, hw⟩ := exists_of_expression? h
  rw [expression?, List.append_assoc, after?_append]
  simp only [through?_append hw]
  simp

end Recognizers

/-! ## Numbers -/

lemma isWordChar_of_isAlphanum {c : Char} (h : c.isAlphanum = true) : isWordChar c = true := by
  simp [isWordChar, isAlphanumeric_of_isAlphanum h]

lemma isDigit_of_not_isWordChar {c : Char} (h : isWordChar c = false) : c.isDigit = false := by
  by_contra hdigit
  rw [isWordChar_of_isAlphanum (by simp [Char.isAlphanum, hdigit])] at h
  cases h

/-- The length of the number that a text starts with, if no word follows. -/
def numberLength (t : Text) : Nat :=
  let digits := runLength Char.isDigit t
  let fraction := fractionLength (t.drop digits)
  let exponent := exponentLength (t.drop (digits + fraction))
  let suffix := suffixLength (t.drop (digits + fraction + exponent))
  digits + fraction + exponent + suffix

lemma number?_eq (t : Text) : number? t =
    if (t.drop (numberLength t)).head?.any isWordChar then none else some (numberLength t) := by
  cases hrest : t.drop (numberLength t) with
  | nil =>
    simp only [numberLength] at hrest
    simp only [number?, hrest]
    rfl
  | cons c r =>
    simp only [numberLength] at hrest
    simp only [number?, hrest]
    rfl

/-- The length of the sign of an exponent. -/
def signLength : Text → Nat
  | c :: _ => if c = '+' || c = '-' then 1 else 0
  | [] => 0

lemma exponentLength_cons {e : Char} (he : e = 'e' ∨ e = 'E') (t : Text) :
    exponentLength (e :: t) =
      if runLength Char.isDigit (t.drop (signLength t)) = 0 then 0
      else 1 + signLength t + runLength Char.isDigit (t.drop (signLength t)) := by
  cases t <;> simp [exponentLength, signLength, he]

lemma exponentLength_of_ne {e : Char} (he : ¬ (e = 'e' ∨ e = 'E')) (t : Text) :
    exponentLength (e :: t) = 0 := by
  simp [exponentLength, he]

section Numbers

variable {v r R : Text}

/-- A run that ends within a text is a run of the text. -/
lemma runLength_append_of_le {p : Char → Bool} (h : runLength p (v ++ r) ≤ v.length) :
    runLength p (v ++ r) = runLength p v := by
  induction v with
  | nil => simpa [runLength] using h
  | cons c v ih =>
    by_cases hc : p c = true
    · simpa [runLength, hc] using ih (by simpa [runLength, hc] using h)
    · simp [runLength, hc]

lemma runLength_append_le {p : Char → Bool} (hR : ∀ d ∈ R.head?, p d = false) :
    runLength p (v ++ R) ≤ v.length := by
  induction v with
  | nil => exact (runLength_append (v := []) (by simp) hR).le
  | cons c v ih =>
    by_cases hc : p c = true
    · simpa [runLength, hc] using ih
    · simp [runLength, hc]

lemma fractionLength_append_of_le (h : fractionLength (v ++ r) ≤ v.length) :
    fractionLength (v ++ r) = fractionLength v := by
  rcases v with _ | ⟨c, v⟩
  · simpa [fractionLength] using h
  · by_cases hc : c = '.'
    · subst hc
      simp only [List.cons_append, fractionLength, List.length_cons] at h ⊢
      rw [runLength_append_of_le (by omega)]
    · simp [fractionLength, hc]

lemma fractionLength_append_le (hdot : '.' ∈ R.head? → v ≠ [])
    (hR : ∀ d ∈ R.head?, isWordChar d = false) : fractionLength (v ++ R) ≤ v.length := by
  have hdigit : ∀ d ∈ R.head?, Char.isDigit d = false := fun d hd =>
    isDigit_of_not_isWordChar (hR d hd)
  rcases v with _ | ⟨c, v⟩
  · rcases R with _ | ⟨d, R⟩
    · simp [fractionLength]
    · have hd : d ≠ '.' := by
        rintro rfl
        exact hdot rfl rfl
      simp [fractionLength, hd]
  · by_cases hc : c = '.'
    · subst hc
      have hle := runLength_append_le (v := v) hdigit
      simp only [List.cons_append, fractionLength, List.length_cons]
      omega
    · simp [fractionLength, hc]

lemma exponentLength_append_of_le (h : exponentLength (v ++ r) ≤ v.length) :
    exponentLength (v ++ r) = exponentLength v := by
  rcases v with _ | ⟨e, v⟩
  · simpa [exponentLength] using h
  · by_cases he : e = 'e' ∨ e = 'E'
    · rw [List.cons_append, exponentLength_cons he] at h ⊢
      rw [exponentLength_cons he]
      rcases v with _ | ⟨s, v⟩
      · rw [List.nil_append] at h ⊢
        split at h
        · rename_i hdigits
          rw [if_pos hdigits]
          rfl
        · simp only [List.length_cons, List.length_nil] at h
          omega
      · have hsign : signLength (s :: v ++ r) = signLength (s :: v) := rfl
        have hle : signLength (s :: v) ≤ (s :: v).length := by
          simp only [signLength, List.length_cons]
          split <;> omega
        rw [hsign, List.drop_append_of_le_length hle] at h ⊢
        have hdigits : runLength Char.isDigit ((s :: v).drop (signLength (s :: v)) ++ r) =
            runLength Char.isDigit ((s :: v).drop (signLength (s :: v))) := by
          refine runLength_append_of_le ?_
          rw [List.length_drop]
          split at h
          · omega
          · simp only [List.length_cons] at h ⊢
            omega
        rw [hdigits]
    · rw [List.cons_append, exponentLength_of_ne he, exponentLength_of_ne he]

lemma exponentLength_append_le (hR : ∀ d ∈ R.head?, isWordChar d = false)
    (hsign : ∀ d ∈ R.head?, d = '+' ∨ d = '-' → v ≠ ['e'] ∧ v ≠ ['E']) :
    exponentLength (v ++ R) ≤ v.length := by
  have hdigit : ∀ d ∈ R.head?, Char.isDigit d = false := fun d hd =>
    isDigit_of_not_isWordChar (hR d hd)
  rcases v with _ | ⟨e, v⟩
  · rcases R with _ | ⟨d, R⟩
    · simp [exponentLength]
    · have hd : ¬ (d = 'e' ∨ d = 'E') := by
        have hword := hR d rfl
        rintro (rfl | rfl) <;> exact absurd hword (by decide)
      simp [exponentLength_of_ne hd]
  · by_cases he : e = 'e' ∨ e = 'E'
    · rw [List.cons_append, exponentLength_cons he]
      split
      · exact Nat.zero_le _
      · rename_i hdigits
        rcases v with _ | ⟨s, v⟩
        · -- no sign and no digit is in front of the rest
          have hnone : signLength R = 0 := by
            rcases R with _ | ⟨d, R⟩
            · rfl
            · rw [signLength, if_neg]
              intro hd
              have hne := hsign d rfl (by simpa using hd)
              rcases he with rfl | rfl <;> simp at hne
          rw [List.nil_append, hnone] at hdigits
          exact absurd (Nat.le_zero.1 (runLength_append_le (v := []) hdigit)) hdigits
        · have hsame : signLength (s :: v ++ R) = signLength (s :: v) := rfl
          have hle : signLength (s :: v) ≤ (s :: v).length := by
            simp only [signLength, List.length_cons]
            split <;> omega
          rw [hsame, List.drop_append_of_le_length hle]
          have hrun := runLength_append_le (v := (s :: v).drop (signLength (s :: v))) hdigit
          simp only [List.length_drop, List.length_cons] at hrun hle ⊢
          omega
    · simp [exponentLength_of_ne he]

lemma suffixLength_append_of_le (h : suffixLength (v ++ r) ≤ v.length) :
    suffixLength (v ++ r) = suffixLength v := by
  cases v with
  | nil => simpa [suffixLength] using h
  | cons c v => rfl

lemma suffixLength_append_le (hR : ∀ d ∈ R.head?, isWordChar d = false) :
    suffixLength (v ++ R) ≤ v.length := by
  rcases v with _ | ⟨c, v⟩
  · rcases R with _ | ⟨d, R⟩
    · simp [suffixLength]
    · have hd : d ∉ ['l', 'L', 'f', 'F', 'd', 'D'] := by
        have hword := hR d rfl
        intro hd
        simp only [List.mem_cons, List.not_mem_nil, or_false] at hd
        rcases hd with rfl | rfl | rfl | rfl | rfl | rfl <;> exact absurd hword (by decide)
      simp [suffixLength, hd]
  · simp only [List.cons_append, suffixLength, List.length_cons]
    split <;> omega

/-- A number that ends within a text is a number of the text. -/
lemma numberLength_append_of_le (h : numberLength (v ++ r) ≤ v.length) :
    numberLength (v ++ r) = numberLength v := by
  have hdigits : runLength Char.isDigit (v ++ r) = runLength Char.isDigit v :=
    runLength_append_of_le (by simp only [numberLength] at h; omega)
  simp only [numberLength, hdigits] at h ⊢
  generalize runLength Char.isDigit v = digits at h ⊢
  rw [List.drop_append_of_le_length (by omega)] at h ⊢
  have hfraction := @fractionLength_append_of_le (v.drop digits) r
    (by rw [List.length_drop]; omega)
  rw [hfraction] at h ⊢
  generalize fractionLength (v.drop digits) = fraction at h ⊢
  rw [List.drop_append_of_le_length (by omega)] at h ⊢
  have hexponent := @exponentLength_append_of_le (v.drop (digits + fraction)) r
    (by rw [List.length_drop]; omega)
  rw [hexponent] at h ⊢
  generalize exponentLength (v.drop (digits + fraction)) = exponent at h ⊢
  rw [List.drop_append_of_le_length (by omega)] at h ⊢
  rw [@suffixLength_append_of_le (v.drop (digits + fraction + exponent)) r
    (by rw [List.length_drop]; omega)]

/-- Behind the digits and the fraction of a number there is more than an `e`. -/
lemma drop_ne_of_number? (h : (number? v).isSome = true) {e : Char} (he : e = 'e' ∨ e = 'E') :
    v.drop (runLength Char.isDigit v + fractionLength (v.drop (runLength Char.isDigit v))) ≠
      [e] := by
  intro hdrop
  have hexponent : exponentLength [e] = 0 := by
    rw [exponentLength_cons he]
    rfl
  have hsuffix : suffixLength [e] = 0 := by rcases he with rfl | rfl <;> rfl
  have hword : isWordChar e = true := by rcases he with rfl | rfl <;> decide
  have hlength : numberLength v =
      runLength Char.isDigit v + fractionLength (v.drop (runLength Char.isDigit v)) := by
    simp only [numberLength, hdrop, hexponent, Nat.add_zero, hsuffix]
  rw [number?_eq, hlength, hdrop] at h
  simp [hword] at h

/-- In front of a rest that does not carry it on, a number ends within its text.  It is read in four
runs, and each of them is bounded by the text because the rest starts with none of the characters
that the run could go on with: a digit, a dot behind digits only, a sign behind an exponent. -/
lemma numberLength_append_le (hR : ∀ d ∈ R.head?, isWordChar d = false)
    (hdot : '.' ∈ R.head? → v.all Char.isDigit = false)
    (hsign : ∀ d ∈ R.head?, d = '+' ∨ d = '-' → (number? v).isSome = true) :
    numberLength (v ++ R) ≤ v.length := by
  have hdigit : ∀ d ∈ R.head?, Char.isDigit d = false := fun d hd =>
    isDigit_of_not_isWordChar (hR d hd)
  have hle := runLength_append_le (v := v) hdigit
  have hdigits := runLength_append_of_le hle
  rw [hdigits] at hle
  have hnil : '.' ∈ R.head? → v.drop (runLength Char.isDigit v) ≠ [] := by
    intro hpoint hdrop
    have hlength := List.drop_eq_nil_iff.1 hdrop
    have hall := (of_runLength_append (v := v) (r := []) (p := Char.isDigit)
      (by rw [List.append_nil]; omega)).1
    rw [List.all_eq_true.2 hall] at hdot
    exact absurd (hdot hpoint) (by simp)
  have hne : ∀ d ∈ R.head?, d = '+' ∨ d = '-' → ∀ e, e = 'e' ∨ e = 'E' →
      v.drop (runLength Char.isDigit v + fractionLength (v.drop (runLength Char.isDigit v))) ≠
        [e] :=
    fun d hd hs e he => drop_ne_of_number? (hsign d hd hs) he
  simp only [numberLength, hdigits]
  generalize runLength Char.isDigit v = digits at hle hnil hne ⊢
  rw [List.drop_append_of_le_length hle]
  have hfractionLe := fractionLength_append_le hnil hR
  have hfraction := fractionLength_append_of_le hfractionLe
  rw [List.length_drop, hfraction] at hfractionLe
  rw [hfraction]
  generalize fractionLength (v.drop digits) = fraction at hne hfractionLe ⊢
  rw [List.drop_append_of_le_length (by omega)]
  have hexponentLe := exponentLength_append_le hR fun d hd hs =>
    ⟨hne d hd hs 'e' (.inl rfl), hne d hd hs 'E' (.inr rfl)⟩
  have hexponent := exponentLength_append_of_le hexponentLe
  rw [List.length_drop, hexponent] at hexponentLe
  rw [hexponent]
  generalize exponentLength (v.drop (digits + fraction)) = exponent at hexponentLe ⊢
  rw [List.drop_append_of_le_length (by omega)]
  have hsuffixLe := suffixLength_append_le (v := v.drop (digits + fraction + exponent)) hR
  rw [List.length_drop] at hsuffixLe
  omega

/-- A rest that does not carry it on makes no difference to a number. -/
lemma number?_append (hR : ∀ d ∈ R.head?, isWordChar d = false)
    (hdot : '.' ∈ R.head? → v.all Char.isDigit = false)
    (hsign : ∀ d ∈ R.head?, d = '+' ∨ d = '-' → (number? v).isSome = true) :
    number? (v ++ R) = number? v := by
  have hle := numberLength_append_le hR hdot hsign
  have hlength := numberLength_append_of_le hle
  rw [hlength] at hle
  rw [number?_eq, number?_eq, hlength, List.drop_append_of_le_length hle]
  by_cases hnil : v.drop (numberLength v) = []
  · have hnone : R.head?.any isWordChar = false := by
      cases hd : R.head? with
      | none => rfl
      | some d => simp [hR d hd]
    simp [hnil, hnone]
  · rw [List.head?_append_of_ne_nil _ hnil]

/-- A number that ends where a text does is one on its own. -/
lemma number?_of_append (h : number? (v ++ r) = some v.length) :
    number? v = some v.length ∧ ∀ d ∈ r.head?, isWordChar d = false := by
  rw [number?_eq] at h
  split at h
  · cases h
  · rename_i hword
    have hv := Option.some.inj h
    have hlength := numberLength_append_of_le hv.le
    rw [hv, List.drop_left] at hword
    rw [number?_eq, ← hlength, hv, List.drop_length]
    refine ⟨rfl, fun d hd => ?_⟩
    rw [hd] at hword
    simpa using hword

/-- What is no number in front of one rest is none in front of another. -/
lemma number?_append_eq_none (h : number? (v ++ r) = none)
    (hr : ∀ d ∈ r.head?, isWordChar d = false) (hR : ∀ d ∈ R.head?, isWordChar d = false)
    (hdot : v.all Char.isDigit = false) (hsign : ∀ d ∈ R.head?, d ≠ '+' ∧ d ≠ '-') :
    number? (v ++ R) = none := by
  have hv : number? v = none := by
    by_contra hsome
    have hsome := Option.ne_none_iff_isSome.1 hsome
    rw [number?_append hr (fun _ => hdot) fun _ _ _ => hsome] at h
    rw [h] at hsome
    cases hsome
  rw [number?_append hR (fun _ => hdot) fun d hd hs => ?_, hv]
  rcases hs with rfl | rfl
  · exact absurd rfl (hsign _ hd).1
  · exact absurd rfl (hsign _ hd).2

end Numbers

end SqlInlay.Sql
