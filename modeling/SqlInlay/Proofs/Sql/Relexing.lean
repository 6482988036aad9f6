import SqlInlay.Proofs.Sql.Recognizing

/-!
# Lexemes that are read again

What a layout shows is read by the lexer again, with other blanks between the tokens than the query
had.  Whether a text is a lexeme depends on more than the text: on the character in front of it, for
a keyword behind a dot is a name, and on what follows, for a number goes on as far as it can.  This
module says for each kind of lexeme how far that dependence goes.  It is not far: but for one case,
a look at the next character is enough.  So a layout can be read token by token, with nothing to be
known of a token but its neighbours (`Sited.exists_lexeme_shown`).

**By kind.**  `Lexeme` says by kind what it takes for a text to be a lexeme behind a character and
in front of a rest, and `lexeme_iff` that this is what `lexeme` finds.  From there on the order in
which the lexer tries one kind after the other does not matter any more.

**In front of another rest** a lexeme is the same one, if the character behind it does not carry it
on.

* `stops` — that test, by the kind of the lexeme.
* `Lexeme.append` — the test is enough for all lexemes but words; `Lexeme.trimEnd` is the case of a
  line comment, of which a layout shows less than the query has.
* `IsWordText` — what makes a word, apart from where it stands.  A word is a keyword or not
  depending on the dots that it touches (`wordKind_eq_keyword_iff`), and one that starts with a
  digit could be read as a number; `IsWordText.lexeme` says what a word needs in its new place.

**Texts** are read lexeme by lexeme.

* `Scanned` — each of some tokens is a lexeme in front of the others.
* `scanned_of_lexemesFrom` — the tokens that are read from a text are scanned.
* `lexemesFrom_of_scanned` — scanned tokens are read from their text, which is how the tokens of a
  layout are found once each is known to be a lexeme in its place.

**Digits** in front of a dot are the one place where a lexeme depends on more than the next
character: in `1.x` they are a name, for `1.` would run into a word.  `exists_of_digits` finds the
dot and the word, and by `number?_digits_dot_eq_none` they do the same in front of another rest.
-/

namespace SqlInlay.Sql

open SqlInlay.Text

/-! ## Lexemes

The lexer looks for comments, strings, quoted names, numbers, words, parameters, operators and marks
in a fixed order, so the condition for a late kind is that all earlier ones fail.  `Lexeme` has one
rule for each kind, with the part of that condition that does not follow from the first character.
-/

/-- The character may start an operator in front of `t`. -/
structure IsSymbol (c : Char) (t : Text) : Prop where
  spacing : isSpacing c = false
  word : isWordChar c = false
  quote : c ≠ '\'' ∧ c ≠ '"' ∧ c ≠ '\x60'
  punctuation : punctuation? c = none
  blockComment : c = '/' → '*' ∉ t.head?
  lineComment : c = '-' → '-' ∉ t.head?
  parameter : parameter? c t = none

/-- The text `c :: v` is a lexeme of some kind behind the character `before` and in front of `r`. -/
inductive Lexeme (before : Option Char) (c : Char) (v r : Text) : Kind → Prop
  | blockComment (w : Text) (hc : c = '/') (hv : v = '*' :: w)
    (h : through? "*/" (w ++ r) = some w.length) : Lexeme before c v r .blockComment
  | string (hc : c = '\'') (h : throughDoubledQuote? c (v ++ r) = some v.length) :
    Lexeme before c v r .string
  | quoted (hc : c = '"') (h : throughDoubledQuote? c (v ++ r) = some v.length) :
    Lexeme before c v r .quotedIdentifier
  | ticked (hc : c = '\x60') (h : through? [c] (v ++ r) = some v.length) :
    Lexeme before c v r .quotedIdentifier
  | blank (hc : isSpacing c = true) (h : runLength isSpacing (v ++ r) = v.length) :
    Lexeme before c v r .blank
  | lineComment (w : Text) (hc : c = '-') (hv : v = '-' :: w)
    (h : runLength (fun d => d ≠ '\n' && d ≠ '\r') (v ++ r) = v.length) :
    Lexeme before c v r .lineComment
  | number (hc : c.isDigit = true) (h : number? (v ++ r) = some v.length) :
    Lexeme before c v r .number
  | parameter (h : parameter? c (v ++ r) = some v.length) : Lexeme before c v r .parameter
  | word (hc : isWordChar c = true) (hnumber : c.isDigit = true → number? (v ++ r) = none)
    (hparameter : parameter? c (v ++ r) = none) (h : runLength isWordChar (v ++ r) = v.length) :
    Lexeme before c v r (wordKind before (c :: v) r)
  | punctuation {kind : Kind} (h : punctuation? c = some kind) (hv : v = []) :
    Lexeme before c v r kind
  | operator (hc : IsSymbol c (v ++ r)) (h : operatorLength c (v ++ r) = v.length) :
    Lexeme before c v r .operator

section Lexeme

variable {before : Option Char} {c : Char} {v r : Text} {kind : Kind}

lemma opensWith_singleton (d : Char) (t : Text) : opensWith [d] t = true ↔ d ∈ t.head? := by
  rw [opensWith_iff]
  cases t with
  | nil => simp
  | cons e t => simp [eq_comm]

/-- A mark in front of a text and its first character are the start of the text. -/
lemma exists_cons_of_opensWith {d : Char} (h : opensWith [d] (v ++ r) = true) (hv : v ≠ []) :
    ∃ w, v = d :: w := by
  obtain ⟨e, w, rfl⟩ := List.exists_cons_of_ne_nil hv
  obtain rfl : e = d := by simpa using (opensWith_singleton d _).1 h
  exact ⟨w, rfl⟩

/-- A parameter starts with one of three characters. -/
lemma of_parameter? {t : Text} {n : Nat} (h : parameter? c t = some n) :
    c = ':' ∨ c = '?' ∨ c = '$' := by
  by_contra hc
  simp only [not_or] at hc
  simp [parameter?, hc.1, hc.2.1, hc.2.2] at h

/-- The punctuation marks. -/
lemma of_punctuation? (h : punctuation? c = some kind) :
    (c = '(' ∧ kind = .openParen) ∨ (c = ')' ∧ kind = .closeParen) ∨ (c = ',' ∧ kind = .comma) ∨
      (c = '.' ∧ kind = .dot) ∨ (c = ';' ∧ kind = .semicolon) := by
  unfold punctuation? at h
  split at h <;> simp_all

/-- An unquoted lexeme is one of its kind.  The alternatives are tried in the order of the lexer,
and what an earlier one has left over becomes a side condition of the later ones. -/
lemma lexeme_of_plainLexeme (h : plainLexeme before c (v ++ r) = (kind, v.length))
    (hquote : c ≠ '\'' ∧ c ≠ '"' ∧ c ≠ '\x60') (hblock : c = '/' → '*' ∉ (v ++ r).head?) :
    Lexeme before c v r kind := by
  unfold plainLexeme at h
  split at h
  · rename_i hspacing
    obtain ⟨rfl, hn⟩ := Prod.mk.inj h
    exact .blank hspacing hn
  rename_i hspacing
  split at h
  · rename_i hdash
    rw [Bool.and_eq_true, decide_eq_true_eq] at hdash
    obtain ⟨rfl, hn⟩ := Prod.mk.inj h
    obtain ⟨w, rfl⟩ : ∃ w, v = '-' :: w := by
      refine exists_cons_of_opensWith hdash.2 ?_
      rintro rfl
      obtain ⟨w, rfl⟩ := opensWith_iff.1 hdash.2
      simp [runLength] at hn
    exact .lineComment w hdash.1 rfl hn
  rename_i hdash
  split at h
  · rename_i n hnumber
    obtain ⟨rfl, rfl⟩ := Prod.mk.inj h
    split at hnumber
    · rename_i hdigit
      exact .number hdigit hnumber
    · cases hnumber
  rename_i hnumber
  split at h
  · rename_i n hparameter
    obtain ⟨rfl, rfl⟩ := Prod.mk.inj h
    exact .parameter hparameter
  rename_i hparameter
  split at h
  · rename_i hword
    obtain ⟨hk, hn⟩ := Prod.mk.inj h
    rw [hn, List.take_left, List.drop_left] at hk
    subst hk
    exact .word hword (fun hdigit => by simpa [hdigit] using hnumber) hparameter hn
  rename_i hword
  split at h
  · rename_i k hpunctuation
    obtain ⟨rfl, hn⟩ := Prod.mk.inj h
    exact .punctuation hpunctuation (List.eq_nil_of_length_eq_zero hn.symm)
  rename_i hpunctuation
  obtain ⟨rfl, hn⟩ := Prod.mk.inj h
  refine .operator ⟨by simpa using hspacing, by simpa using hword, hquote, hpunctuation, hblock,
    fun hc hhead => ?_, hparameter⟩ hn
  simp [hc, (opensWith_singleton '-' _).2 hhead] at hdash

/-- A lexeme is one of its kind.  This is the one place where the order is followed in which the
lexer tries the kinds. -/
lemma lexeme_of_eq_ok (h : lexeme before c (v ++ r) = .ok (kind, v.length)) :
    Lexeme before c v r kind := by
  unfold lexeme at h
  split at h
  · rename_i hopens
    rw [Bool.and_eq_true, decide_eq_true_eq] at hopens
    obtain ⟨rfl, hfound⟩ := of_delimited h
    obtain ⟨m, hm, hlength⟩ := Option.map_eq_some_iff.1 hfound
    obtain ⟨w, rfl⟩ := exists_cons_of_opensWith hopens.2 (by rintro rfl; simp at hlength)
    obtain rfl : m = w.length := by simpa using hlength
    exact .blockComment w hopens.1 rfl hm
  rename_i hblock
  split at h
  · rename_i hc
    obtain ⟨rfl, hfound⟩ := of_delimited h
    exact .string hc hfound
  rename_i hstring
  split at h
  · rename_i hc
    obtain ⟨rfl, hfound⟩ := of_delimited h
    exact .quoted hc hfound
  rename_i hquoted
  split at h
  · rename_i hc
    obtain ⟨rfl, hfound⟩ := of_delimited h
    exact .ticked hc hfound
  rename_i hticked
  refine lexeme_of_plainLexeme (Except.ok.inj h) ⟨hstring, hquoted, hticked⟩ fun hc hhead => ?_
  simp [hc, (opensWith_singleton '*' _).2 hhead] at hblock

/-- Where no delimiter stands, an unquoted lexeme starts. -/
lemma lexeme_eq_plain {t : Text} (hquote : c ≠ '\'' ∧ c ≠ '"' ∧ c ≠ '\x60')
    (hblock : c = '/' → '*' ∉ t.head?) : lexeme before c t = .ok (plainLexeme before c t) := by
  have hopens : ¬ (decide (c = '/') && opensWith "*" t) = true := by
    rw [Bool.and_eq_true, decide_eq_true_eq]
    exact fun hopens => hblock hopens.1 ((opensWith_singleton '*' t).1 hopens.2)
  rw [lexeme, if_neg hopens, if_neg hquote.1, if_neg hquote.2.1, if_neg hquote.2.2]

/-- Where no blank and no comment stands, a lexeme is read by what it starts with. -/
lemma plainLexeme_eq {t : Text} (hspacing : isSpacing c = false)
    (hline : c = '-' → '-' ∉ t.head?) : plainLexeme before c t =
      match if c.isDigit then number? t else none with
      | some n => (.number, n)
      | none =>
        match parameter? c t with
        | some n => (.parameter, n)
        | none =>
          if isWordChar c then
            (wordKind before (c :: t.take (runLength isWordChar t))
              (t.drop (runLength isWordChar t)), runLength isWordChar t)
          else
            match punctuation? c with
            | some kind => (kind, 0)
            | none => (.operator, operatorLength c t) := by
  have hopens : ¬ (decide (c = '-') && opensWith "-" t) = true := by
    rw [Bool.and_eq_true, decide_eq_true_eq]
    exact fun hopens => hline hopens.1 ((opensWith_singleton '-' t).1 hopens.2)
  exact (if_neg (by simp [hspacing])).trans (if_neg hopens)

/-- The characters of a class that no delimiter and no comment starts with. -/
lemma ne_of_class {p : Char → Bool} (hc : p c = true) {d : Char} (hd : p d = false) : c ≠ d :=
  ne_of_apply_ne p (by simp [hc, hd])

/-- What is of its kind is a lexeme: no kind that is tried before its own is found there.  This is
the converse that lets a token be read again in front of another rest: it suffices to find its kind
there. -/
lemma Lexeme.eq_ok (h : Lexeme before c v r kind) :
    lexeme before c (v ++ r) = .ok (kind, v.length) := by
  cases h with
  | blockComment w hc hv h =>
    subst hc hv
    simp only [lexeme, List.cons_append, List.drop_succ_cons, List.drop_zero, h]
    rfl
  | string hc h =>
    subst hc
    simp [lexeme, h, delimited]
  | quoted hc h =>
    subst hc
    simp [lexeme, h, delimited]
  | ticked hc h =>
    subst hc
    simp [lexeme, h, delimited]
  | blank hc h =>
    rw [lexeme_eq_plain ⟨ne_of_class hc rfl, ne_of_class hc rfl, ne_of_class hc rfl⟩
      fun hslash => absurd hslash (ne_of_class hc rfl), plainLexeme, if_pos hc, h]
  | lineComment w hc hv h =>
    subst hc hv
    rw [lexeme_eq_plain ⟨by decide, by decide, by decide⟩ (by simp), plainLexeme,
      if_neg (by decide), if_pos (by simp [opensWith, after?]), h]
  | number hc h =>
    have hword := isWordChar_of_isAlphanum (c := c) (by simp [Char.isAlphanum, hc])
    rw [lexeme_eq_plain ⟨ne_of_class hc rfl, ne_of_class hc rfl, ne_of_class hc rfl⟩
      fun hslash => absurd hslash (ne_of_class hc rfl),
      plainLexeme_eq (isSpacing_of_isDigit hc) fun hdash => absurd hdash (ne_of_class hc rfl)]
    simp [hc, h]
  | parameter h =>
    have hc := of_parameter? h
    have hplain : isSpacing c = false ∧ c.isDigit = false ∧ c ≠ '-' ∧ c ≠ '/' ∧
        c ≠ '\'' ∧ c ≠ '"' ∧ c ≠ '\x60' := by
      rcases hc with rfl | rfl | rfl <;> decide
    rw [lexeme_eq_plain hplain.2.2.2.2 fun hslash => absurd hslash hplain.2.2.2.1,
      plainLexeme_eq hplain.1 fun hdash => absurd hdash hplain.2.2.1]
    simp [hplain.2.1, h]
  | word hc hnumber hparameter h =>
    have hdigits : (if c.isDigit then number? (v ++ r) else none) = none := by
      split
      · exact hnumber ‹_›
      · rfl
    rw [lexeme_eq_plain ⟨ne_of_class hc (by decide), ne_of_class hc (by decide),
      ne_of_class hc (by decide)⟩ fun hslash => absurd hslash (ne_of_class hc (by decide)),
      plainLexeme_eq (isSpacing_of_isWordChar hc) fun hdash =>
        absurd hdash (ne_of_class hc (by decide))]
    simp only [hdigits, hparameter, hc, if_true, h, List.take_left, List.drop_left]
  | punctuation h hv =>
    subst hv
    have hplain : isSpacing c = false ∧ c.isDigit = false ∧ c ≠ '-' ∧ c ≠ '/' ∧
        isWordChar c = false ∧ (c ≠ '\'' ∧ c ≠ '"' ∧ c ≠ '\x60') ∧ c ≠ ':' ∧ c ≠ '?' ∧ c ≠ '$' := by
      rcases of_punctuation? h with ⟨rfl, -⟩ | ⟨rfl, -⟩ | ⟨rfl, -⟩ | ⟨rfl, -⟩ | ⟨rfl, -⟩ <;> decide
    obtain ⟨hspacing, hdigit, hdash, hslash, hword, hquote, hcolon, hmark, hdollar⟩ := hplain
    rw [lexeme_eq_plain hquote fun h => absurd h hslash,
      plainLexeme_eq hspacing fun h => absurd h hdash]
    have hparameter : parameter? c r = none := by
      simp [parameter?, hcolon, hmark, hdollar]
    simp [hdigit, hparameter, hword, h]
  | operator hc h =>
    have hdigit := isDigit_of_not_isWordChar hc.word
    rw [lexeme_eq_plain hc.quote hc.blockComment, plainLexeme_eq hc.spacing hc.lineComment]
    simp [hdigit, hc.parameter, hc.word, hc.punctuation, h]

/-- **Lexemes by kind.**  On the left is the lexer at work, on the right what it takes for a text to
be a lexeme of that kind in front of what follows it. -/
lemma lexeme_iff : lexeme before c (v ++ r) = .ok (kind, v.length) ↔
    Lexeme before c v r kind := ⟨lexeme_of_eq_ok, Lexeme.eq_ok⟩

end Lexeme

/-! ## The same lexeme in front of another rest

Each kind is ended by something of its own: a string by its quote, a number or a parameter by a
character that is no part of it, an operator by a character with which it makes no longer one.
`stops` puts these tests together, so that the kinds need not be told apart again.
-/

/-- The kind of a word. -/
def Kind.isWord : Kind → Bool
  | .identifier | .keyword _ => true
  | _ => false

/-- An operator is not carried on by the character `d`.  A single character may be the start of a
longer operator, of a comment or of a parameter. -/
def stopsOperator (text : Text) (d : Char) : Bool :=
  match text with
  | [c] => !(["--".toList, "/*".toList] ++ longOperators).any (opensWith [c, d]) &&
      (c != ':' || !isWordChar d && d != '#')
  | _ => text != "->".toList || d != '>'

/-- A lexeme of some kind is not carried on by the character `d`.  Only the first character behind
the lexeme is looked at. -/
def stops (kind : Kind) (text : Text) (d : Char) : Bool :=
  match kind with
  | .string => d != '\''
  | .quotedIdentifier => d != '"'
  | .number => !isWordChar d && (d != '.' || !text.all Char.isDigit)
  | .identifier | .keyword _ => !isWordChar d && d != '+' && d != '-'
  | .parameter => !isWordChar d && d != '#'
  | .operator => stopsOperator text d
  | .lineComment => d == '\n' || d == '\r'
  | .blank => !isSpacing d
  | _ => true

section Stops

variable {before before' : Option Char} {c : Char} {v r R : Text} {kind : Kind}

lemma isWord_wordKind (before : Option Char) (word rest : Text) :
    (wordKind before word rest).isWord = true := by
  unfold wordKind
  split
  · rfl
  · split <;> rfl

/-- A run up to the rest is a run up to any other that does not carry it on. -/
lemma runLength_append_congr {p : Char → Bool} (h : runLength p (v ++ r) = v.length)
    (hR : ∀ d ∈ R.head?, p d = false) : runLength p (v ++ R) = v.length :=
  runLength_append (of_runLength_append h).1 hR

lemma expression?_eq_none {t : Text} (h : '#' ∉ t.head?) : expression? t = none := by
  have hafter : after? "#\x7b" t = none := by
    rw [after?_eq_none_iff]
    rintro ⟨rest, rfl⟩
    exact h rfl
  rw [expression?, hafter]

lemma parameter?_of_expression {t : Text} {n : Nat} (hc : c = ':' ∨ c = '?')
    (h : expression? t = some n) : parameter? c t = some n := by
  rcases hc with rfl | rfl <;> simp [parameter?, h]

lemma parameter?_colon {t : Text} (h : expression? t = none) :
    parameter? ':' t =
      if runLength isWordChar t = 0 then none else some (runLength isWordChar t) := by
  simp [parameter?, h]

lemma parameter?_question {t : Text} (h : expression? t = none) :
    parameter? '?' t = some (runLength Char.isDigit t) := by
  simp [parameter?, h]

lemma parameter?_dollar (t : Text) : parameter? '$' t =
    if runLength Char.isDigit t = 0 then none else some (runLength Char.isDigit t) := by
  simp [parameter?]

/-- **Parameters by kind**: an expression, a name, a position behind `?` or one behind `$`. -/
lemma parameter?_cases {t : Text} {n : Nat} (h : parameter? c t = some n) :
    (c = ':' ∨ c = '?') ∧ expression? t = some n ∨
    c = ':' ∧ expression? t = none ∧ runLength isWordChar t = n ∧ n ≠ 0 ∨
    c = '?' ∧ expression? t = none ∧ runLength Char.isDigit t = n ∨
    c = '$' ∧ runLength Char.isDigit t = n ∧ n ≠ 0 := by
  have hrun : ∀ m, (if m = 0 then none else some m) = some n → m = n ∧ n ≠ 0 := by
    intro m hm
    split at hm
    · cases hm
    · exact ⟨Option.some.inj hm, Option.some.inj hm ▸ ‹_›⟩
  cases he : expression? t with
  | some m =>
    rcases of_parameter? h with rfl | rfl | rfl
    · rw [parameter?_of_expression (.inl rfl) he] at h
      exact .inl ⟨.inl rfl, h⟩
    · rw [parameter?_of_expression (.inr rfl) he] at h
      exact .inl ⟨.inr rfl, h⟩
    · rw [parameter?_dollar] at h
      exact .inr (.inr (.inr ⟨rfl, hrun _ h⟩))
  | none =>
    rcases of_parameter? h with rfl | rfl | rfl
    · rw [parameter?_colon he] at h
      exact .inr (.inl ⟨rfl, rfl, hrun _ h⟩)
    · rw [parameter?_question he] at h
      exact .inr (.inr (.inl ⟨rfl, rfl, Option.some.inj h⟩))
    · rw [parameter?_dollar] at h
      exact .inr (.inr (.inr ⟨rfl, hrun _ h⟩))

/-- A run of characters other than `#` does not open an expression in front of such a rest. -/
lemma expression?_append_eq_none {p : Char → Bool} (hp : p '#' = false) (hv : ∀ d ∈ v, p d = true)
    (hR : '#' ∉ R.head?) : expression? (v ++ R) = none := by
  refine expression?_eq_none fun hhead => ?_
  cases v with
  | nil => exact hR hhead
  | cons d v =>
    obtain rfl : d = '#' := by simpa using hhead
    rw [hv _ (List.mem_cons_self ..)] at hp
    cases hp

/-- A parameter in front of another rest. -/
lemma parameter?_append (h : parameter? c (v ++ r) = some v.length)
    (hR : ∀ d ∈ R.head?, isWordChar d = false ∧ d ≠ '#') :
    parameter? c (v ++ R) = some v.length := by
  have hword : ∀ d ∈ R.head?, isWordChar d = false := fun d hd => (hR d hd).1
  have hdigit : ∀ d ∈ R.head?, Char.isDigit d = false := fun d hd =>
    isDigit_of_not_isWordChar (hword d hd)
  have hhash : '#' ∉ R.head? := fun hd => (hR _ hd).2 rfl
  rcases parameter?_cases h with
    ⟨hc, he⟩ | ⟨rfl, -, hrun, hpos⟩ | ⟨rfl, -, hrun⟩ | ⟨rfl, hrun, hpos⟩
  · exact parameter?_of_expression hc (expression?_append he)
  · have hv := (of_runLength_append hrun).1
    rw [parameter?_colon (expression?_append_eq_none (by decide) hv hhash),
      runLength_append_congr hrun hword, if_neg hpos]
  · have hv := (of_runLength_append hrun).1
    rw [parameter?_question (expression?_append_eq_none (by decide) hv hhash),
      runLength_append_congr hrun hdigit]
  · rw [parameter?_dollar, runLength_append_congr hrun hdigit, if_neg hpos]

/-- A lexeme of several characters that is an operator is one of the list. -/
lemma mem_longOperators (h : operatorLength c (v ++ r) = v.length) (hv : v ≠ []) :
    c :: v ∈ longOperators := by
  unfold operatorLength at h
  split at h
  · rename_i long hlong
    have hfound := List.find?_some hlong
    have hopens := opensWith_iff.1 hfound
    have hmem := List.mem_of_find?_eq_some hlong
    have hpos : 0 < long.length := by
      have hall : longOperators.all (fun l => 0 < l.length) = true := by decide
      exact of_decide_eq_true (List.all_eq_true.1 hall long hmem)
    have hlength : long.length = (c :: v).length := by
      simp only [List.length_cons]
      omega
    have hprefix := List.prefix_of_prefix_length_le hopens
      (by exact List.prefix_append (c :: v) r) hlength.le
    rwa [← hprefix.eq_of_length hlength]
  · exact absurd (List.eq_nil_of_length_eq_zero h.symm) hv

/-- An operator in front of another rest is as long as it was.  A single character has to be kept
from starting a long operator together with the rest; a long one is found again, and of the arrows
the shorter one must not become the longer. -/
lemma operatorLength_append (h : operatorLength c (v ++ r) = v.length)
    (hR : ∀ d ∈ R.head?, stopsOperator (c :: v) d = true) :
    operatorLength c (v ++ R) = v.length := by
  by_cases hv : v = []
  · -- no long operator starts with the character and what is behind it
    subst hv
    have hnone : longOperators.find? (opensWith · (c :: R)) = none := by
      rw [List.find?_eq_none]
      intro long hlong hopens
      obtain ⟨a, b, long, rfl⟩ : ∃ a b l, long = a :: b :: l := by
        have hall : longOperators.all (fun l => 2 ≤ l.length) = true := by decide
        have hlength := of_decide_eq_true (List.all_eq_true.1 hall long hlong)
        match long, hlength with
        | a :: b :: l, _ => exact ⟨a, b, l, rfl⟩
      obtain ⟨rest, hrest⟩ := opensWith_iff.1 hopens
      cases R with
      | nil => simp at hrest
      | cons d R =>
        simp only [List.cons_append, List.cons.injEq] at hrest
        obtain ⟨rfl, rfl, -⟩ := hrest
        have hstops := hR b rfl
        simp only [stopsOperator, Bool.and_eq_true, Bool.not_eq_true', List.any_eq_false,
          List.mem_append] at hstops
        exact hstops.1 _ (.inr hlong) (opensWith_iff.2 ⟨long, rfl⟩)
    rw [List.nil_append, operatorLength, hnone]
    rfl
  · have hmem := mem_longOperators h hv
    by_cases harrow : c :: v = "->".toList
    · obtain ⟨rfl, rfl⟩ : c = '-' ∧ v = ['>'] := by simpa using harrow
      rcases R with _ | ⟨d, R⟩
      · rfl
      · have hd : d ≠ '>' := by simpa [stopsOperator] using hR d rfl
        simp [operatorLength, longOperators, opensWith, after?, hd.symm]
    · simp only [longOperators, List.map_cons, List.map_nil, List.mem_cons, List.not_mem_nil,
        or_false, harrow, false_or] at hmem
      rcases hmem with h | h | h | h | h | h | h | h | h | h <;> simp at h <;>
        obtain ⟨rfl, rfl⟩ := h <;> rfl

/-- What may start an operator may do so in front of another rest.  What would make it a comment or
a parameter is decided by the next character, which is its own second one or the first one of the
rest. -/
lemma IsSymbol.append (h : IsSymbol c (v ++ r)) (hlength : operatorLength c (v ++ r) = v.length)
    (hR : ∀ d ∈ R.head?, stopsOperator (c :: v) d = true) : IsSymbol c (v ++ R) := by
  have hhead : ∀ d, d ∉ (v ++ r).head? → stopsOperator [c] d = false → d ∉ (v ++ R).head? := by
    intro d hd hstops
    rcases v with _ | ⟨e, v⟩
    · intro hmem
      rw [hR d hmem] at hstops
      cases hstops
    · simpa using hd
  refine ⟨h.spacing, h.word, h.quote, h.punctuation, fun hc => ?_, fun hc => ?_, ?_⟩
  · exact hhead _ (h.blockComment hc) (by subst hc; rfl)
  · exact hhead _ (h.lineComment hc) (by subst hc; rfl)
  · -- of the characters that start a parameter, only a colon may start an operator
    by_cases hc : c = ':'
    · subst hc
      have hrest : ∀ d ∈ (v ++ R).head?, isWordChar d = false ∧ d ≠ '#' := by
        intro d hd
        rcases v with _ | ⟨e, v⟩
        · have hstops := hR d hd
          simp only [stopsOperator, Bool.and_eq_true, bne_self_eq_false, Bool.false_or,
            Bool.not_eq_true', bne_iff_ne] at hstops
          exact hstops.2
        · have hmem := mem_longOperators hlength (by simp)
          obtain rfl : e = d := by simpa using hd
          have hall : longOperators.all (fun l => l.head? != some ':' || l.tail.head? == some ':')
              = true := by decide
          obtain rfl : e = ':' := by simpa using List.all_eq_true.1 hall _ hmem
          decide
      have hrun : runLength isWordChar (v ++ R) = 0 :=
        runLength_append (v := []) (by simp) fun d hd => (hrest d hd).1
      rw [parameter?_colon (expression?_eq_none fun hd => (hrest _ hd).2 rfl), if_pos hrun]
    · have hmark : c ≠ '?' := by
        rintro rfl
        have hparameter := h.parameter
        cases hexpression : expression? (v ++ r) with
        | some n => simp [parameter?_of_expression (.inr rfl) hexpression] at hparameter
        | none => simp [parameter?_question hexpression] at hparameter
      have hdollar : c ≠ '$' := by
        rintro rfl
        exact absurd h.word (by decide)
      simp [parameter?, hc, hmark, hdollar]

/-- No operator is carried on by a mark, a bracket or a blank. -/
lemma stopsOperator_mark (text : Text) {d : Char}
    (hd : d ∈ ['(', ')', ',', '.', ';', '[', ']', ' ', '\n']) : stopsOperator text d = true := by
  unfold stopsOperator
  split
  · simp only [List.mem_cons, List.not_mem_nil, or_false] at hd
    rcases hd with rfl | rfl | rfl | rfl | rfl | rfl | rfl | rfl | rfl <;>
      simp [longOperators, opensWith, after?, isWordChar, isAlphanumeric, isAlphabetic, isNumeric]
  · simp only [List.mem_cons, List.not_mem_nil, or_false] at hd
    rcases hd with rfl | rfl | rfl | rfl | rfl | rfl | rfl | rfl | rfl <;> simp

/-- Only a colon is carried on by a colon. -/
lemma stopsOperator_colon {text : Text} (h : text ≠ ":".toList) :
    stopsOperator text ':' = true := by
  unfold stopsOperator
  split
  · simp at h
    simp [longOperators, opensWith, after?, h]
  · simp

lemma stopsOperator_plus (d : Char) : stopsOperator "+".toList d = true := by
  simp [stopsOperator, longOperators, opensWith, after?]

lemma stopsOperator_minus {d : Char} (h : d ≠ '-') (h' : d ≠ '>') :
    stopsOperator "-".toList d = true := by
  simp [stopsOperator, longOperators, opensWith, after?, h, h']

lemma stopsOperator_bracket (d : Char) : stopsOperator "[".toList d = true := by
  simp [stopsOperator, longOperators, opensWith, after?]

lemma stopsOperator_cast (d : Char) : stopsOperator "::".toList d = true := by
  simp [stopsOperator]

/-- **A lexeme that is no word** is one in front of any rest that does not carry it on.  The
character in front of it does not matter either, for only words are read by it. -/
theorem Lexeme.append (h : Lexeme before c v r kind) (hkind : kind.isWord = false)
    (hR : ∀ d ∈ R.head?, stops kind (c :: v) d = true) : Lexeme before' c v R kind := by
  cases h with
  | blockComment w hc hv h => exact .blockComment w hc hv (through?_append h)
  | string hc h =>
    refine .string hc (throughDoubledQuote?_append h fun d hd => ?_)
    simpa [stops, hc] using hR d hd
  | quoted hc h =>
    refine .quoted hc (throughDoubledQuote?_append h fun d hd => ?_)
    simpa [stops, hc] using hR d hd
  | ticked hc h => exact .ticked hc (through?_append h)
  | blank hc h =>
    exact .blank hc (runLength_append_congr h fun d hd => by simpa [stops] using hR d hd)
  | lineComment w hc hv h =>
    refine .lineComment w hc hv (runLength_append_congr h fun d hd => ?_)
    have hd := hR d hd
    simp only [stops, Bool.or_eq_true, beq_iff_eq] at hd
    rcases hd with rfl | rfl <;> rfl
  | number hc h =>
    obtain ⟨hv, -⟩ := number?_of_append h
    have hd : ∀ d ∈ R.head?, isWordChar d = false ∧ (d = '.' → v.all Char.isDigit = false) := by
      intro d hd
      have hd := hR d hd
      simp only [stops, Bool.and_eq_true, Bool.not_eq_true', Bool.or_eq_true, bne_iff_ne,
        List.all_cons, hc, Bool.true_and] at hd
      exact ⟨hd.1, fun hdot => hd.2.resolve_left (by simp [hdot])⟩
    refine .number hc ?_
    rw [number?_append (fun d h => (hd d h).1) (fun h => (hd _ h).2 rfl) fun _ _ _ => by simp [hv],
      hv]
  | parameter h =>
    refine .parameter (parameter?_append h fun d hd => ?_)
    simpa [stops] using hR d hd
  | word hc hnumber hparameter h =>
    rw [isWord_wordKind] at hkind
    cases hkind
  | punctuation h hv => exact .punctuation h hv
  | operator hc h => exact .operator (hc.append h hR) (operatorLength_append h hR)

/-- A line comment without the blanks at its end is one in front of a line feed.  This is how the
layout prints it, and its two dashes are never trimmed. -/
lemma Lexeme.trimEnd (h : Lexeme before c v r .lineComment)
    (hR : ∀ d ∈ R.head?, d = '\n' ∨ d = '\r') :
    ∃ w, Text.trimEnd (c :: v) = c :: w ∧ Lexeme before' c w R .lineComment := by
  generalize hk : Kind.lineComment = k at h
  cases h with
  | lineComment w hc hv h =>
    subst hc hv
    obtain ⟨tail, hw, htail⟩ := exists_eq_trimEndWhile_append isBlank w
    have htrim : Text.trimEnd ('-' :: '-' :: w) = '-' :: '-' :: trimEndWhile isBlank w := by
      change trimEndWhile isBlank ('-' :: '-' :: w) = _
      conv_lhs => rw [hw, ← List.cons_append, ← List.cons_append, trimEndWhile_append htail]
      refine trimEndWhile_of_getLast? fun d hd => ?_
      rw [List.getLast?_cons_cons, List.getLast?_cons] at hd
      cases hlast : (trimEndWhile isBlank w).getLast? with
      | none =>
        obtain rfl : '-' = d := by simpa [hlast] using hd
        rfl
      | some e =>
        obtain rfl : e = d := by simpa [hlast] using hd
        exact not_of_mem_getLast?_trimEndWhile hlast
    refine ⟨_, htrim, .lineComment _ rfl rfl (runLength_append ?_ fun d hd => ?_)⟩
    · refine List.forall_mem_cons.2 ⟨by decide, fun d hd => ?_⟩
      exact (of_runLength_append h).1 d
        (List.mem_cons_of_mem _ (( trimEndWhile_prefix isBlank w).subset hd))
    · rcases hR d hd with rfl | rfl <;> rfl
  | word => exact absurd (isWord_wordKind before (c :: v) r) (by simp [← hk, Kind.isWord])
  | punctuation h => rcases of_punctuation? h with h | h | h | h | h <;> cases hk.trans h.2
  | _ => cases hk

/-- What makes a word. -/
structure IsWordText (c : Char) (v : Text) : Prop where
  head : isWordChar c = true
  tail : ∀ d ∈ v, isWordChar d = true
  dollar : c = '$' → ∀ d ∈ v.head?, d.isDigit = false

/-- **A word** and where it stands: no word goes on behind it, and no number starts with it.  Its
kind depends on the dots in front of it and behind it, and on nothing else around it. -/
lemma Lexeme.isWordText (h : Lexeme before c v r kind) (hkind : kind.isWord = true) :
    IsWordText c v ∧ kind = wordKind before (c :: v) r ∧ (∀ d ∈ r.head?, isWordChar d = false) ∧
      (c.isDigit = true → number? (v ++ r) = none) := by
  cases h with
  | word hc hnumber hparameter h =>
    obtain ⟨htail, hrest⟩ := of_runLength_append h
    refine ⟨⟨hc, htail, fun hdollar d hd => ?_⟩, rfl, hrest, hnumber⟩
    subst hdollar
    rw [parameter?_dollar] at hparameter
    cases v with
    | nil => cases hd
    | cons e v =>
      obtain rfl : e = d := by simpa using hd
      by_contra hdigit
      simp [runLength, hdigit] at hparameter
  | punctuation h hv =>
    rcases of_punctuation? h with ⟨rfl, rfl⟩ | ⟨rfl, rfl⟩ | ⟨rfl, rfl⟩ | ⟨rfl, rfl⟩ | ⟨rfl, rfl⟩ <;>
      cases hkind
  | _ => cases hkind

/-- A word in front of a rest that does not carry it on is a word. -/
lemma IsWordText.lexeme (h : IsWordText c v) (hR : ∀ d ∈ R.head?, isWordChar d = false)
    (hnumber : c.isDigit = true → number? (v ++ R) = none) :
    Lexeme before c v R (wordKind before (c :: v) R) := by
  refine .word h.head hnumber ?_ (runLength_append h.tail hR)
  have hcolon : c ≠ ':' := by
    rintro rfl
    exact absurd h.head (by decide)
  have hmark : c ≠ '?' := by
    rintro rfl
    exact absurd h.head (by decide)
  by_cases hdollar : c = '$'
  · subst hdollar
    have hrun : runLength Char.isDigit (v ++ R) = 0 := by
      refine runLength_append (v := []) (by simp) fun d hd => ?_
      rcases v with _ | ⟨e, v⟩
      · exact isDigit_of_not_isWordChar (hR d hd)
      · exact h.dollar rfl d hd
    rw [parameter?_dollar, if_pos hrun]
  · simp [parameter?, hcolon, hmark, hdollar]

end Stops

/-! ## Lexemes of a text

A text is read by one lexeme after the other, and each is read in front of all that follows.  So the
character in front of a token is the last one of the tokens before it (`endOf`), and the rest is the
text of those behind it.
-/

section Scanning

variable {before : Option Char} {c : Char} {t : Text} {kind : Kind} {n : Nat}

lemma runLength_le (p : Char → Bool) (t : Text) : runLength p t ≤ t.length :=
  (List.takeWhile_sublist p).length_le

lemma throughDoubledQuote?_le {quote : Char} (h : throughDoubledQuote? quote t = some n) :
    n ≤ t.length := by
  fun_induction throughDoubledQuote? quote t generalizing n with
  | case1 => cases h
  | case2 => simp_all
  | case3 u ih =>
    obtain ⟨m, hm, rfl⟩ := Option.map_eq_some_iff.1 h
    have := ih hm
    simp only [List.length_cons]
    omega
  | case4 d u hd =>
    obtain rfl := Option.some.inj h
    simp
  | case5 c t hc ih =>
    obtain ⟨m, hm, rfl⟩ := Option.map_eq_some_iff.1 h
    have := ih hm
    simp only [List.length_cons]
    omega

lemma through?_le {closing : Text} (h : through? closing t = some n) : n ≤ t.length := by
  obtain ⟨m, hm, rfl⟩ := Option.map_eq_some_iff.1 h
  obtain ⟨front, back, rfl, rfl⟩ := exists_of_find? hm
  simp

lemma number?_le (h : number? t = some n) : n ≤ t.length := by
  have hle := @numberLength_append_le t [] (by simp) (by simp) (by simp)
  rw [List.append_nil] at hle
  rw [number?_eq] at h
  split at h
  · cases h
  · exact Option.some.inj h ▸ hle

lemma parameter?_le (h : parameter? c t = some n) : n ≤ t.length := by
  rcases parameter?_cases h with ⟨-, he⟩ | ⟨-, -, rfl, -⟩ | ⟨-, -, rfl⟩ | ⟨-, rfl, -⟩
  · unfold expression? at he
    split at he
    · rename_i rest hafter
      obtain ⟨k, hk, rfl⟩ := Option.map_eq_some_iff.1 he
      have hle := through?_le hk
      rw [eq_append_of_after? hafter]
      simp
      omega
    · cases he
  · exact runLength_le _ t
  · exact runLength_le _ t
  · exact runLength_le _ t

lemma operatorLength_le (c : Char) (t : Text) : operatorLength c t ≤ t.length := by
  unfold operatorLength
  split
  · rename_i long hlong
    have hfound := List.find?_some hlong
    have hle := (opensWith_iff.1 hfound).length_le
    simp only [List.length_cons] at hle
    omega
  · exact Nat.zero_le _

/-- A lexeme lies within its text, whichever of the scans of the lexer has found its end. -/
lemma le_of_lexeme (h : lexeme before c t = .ok (kind, n)) : n ≤ t.length := by
  unfold lexeme at h
  split at h
  · obtain ⟨-, hfound⟩ := of_delimited h
    obtain ⟨m, hm, rfl⟩ := Option.map_eq_some_iff.1 hfound
    rename_i hopens
    rw [Bool.and_eq_true] at hopens
    obtain ⟨rest, rfl⟩ := opensWith_iff.1 hopens.2
    have hle := through?_le hm
    simp at hle ⊢
    omega
  split at h
  · exact throughDoubledQuote?_le (of_delimited h).2
  split at h
  · exact throughDoubledQuote?_le (of_delimited h).2
  split at h
  · exact through?_le (of_delimited h).2
  replace h := congrArg Prod.snd (Except.ok.inj h)
  subst h
  unfold plainLexeme
  split
  · exact runLength_le _ t
  split
  · exact runLength_le _ t
  split
  · rename_i n hnumber
    split at hnumber
    · exact number?_le hnumber
    · cases hnumber
  split
  · exact parameter?_le ‹_›
  split
  · exact runLength_le _ t
  split
  · exact Nat.zero_le _
  · exact operatorLength_le c t

/-- Each of some tokens is a lexeme in front of the others.  The lexer makes such tokens, and reads
them again as they are. -/
def Scanned : Option Char → List Token → Prop
  | _, [] => True
  | before, t :: ts =>
    (∃ c v, t.text = c :: v ∧ Lexeme before c v (ts.flatMap Token.text) t.kind) ∧
      Scanned t.text.getLast? ts

/-- The character that some tokens end in. -/
def endOf : Option Char → List Token → Option Char
  | before, [] => before
  | _, t :: ts => endOf t.text.getLast? ts

lemma endOf_concat (before : Option Char) (ts : List Token) (t : Token) :
    endOf before (ts ++ [t]) = t.text.getLast? := by
  induction ts generalizing before with
  | nil => rfl
  | cons u us ih => exact ih _

lemma Scanned.of_append {front back : List Token} (h : Scanned before (front ++ back)) :
    Scanned (endOf before front) back := by
  induction front generalizing before with
  | nil => exact h
  | cons u us ih => exact ih h.2

/-- The tokens that are read are lexemes. -/
lemma scanned_of_lexemesFrom {offset : Nat} {tokens : List Token}
    (h : lexemesFrom before offset t = .ok tokens) : Scanned before tokens := by
  fun_induction lexemesFrom before offset t generalizing tokens with
  | case1 =>
    obtain rfl : [] = tokens := by simpa using h
    trivial
  | case2 => simp at h
  | case3 => simp_all
  | case4 before offset c t kind n hlexeme text rest hrest =>
    rename_i ih
    obtain rfl := Except.ok.inj h
    refine ⟨⟨c, t.take n, rfl, ?_⟩, ih hrest⟩
    rw [flatMap_text_of_lexemesFrom hrest, ← lexeme_iff, List.take_append_drop,
      List.length_take_of_le (le_of_lexeme hlexeme)]
    exact hlexeme

/-- Lexemes are read, one after the other.  Only the offsets of the tokens that are read are new. -/
lemma lexemesFrom_of_scanned {tokens : List Token} (h : Scanned before tokens) (offset : Nat) :
    ∃ tokens', lexemesFrom before offset (tokens.flatMap Token.text) = .ok tokens' ∧
      List.Forall₂ (fun t u : Token => u.kind = t.kind ∧ u.text = t.text) tokens tokens' := by
  induction tokens generalizing before offset with
  | nil => exact ⟨[], by simp [lexemesFrom], .nil⟩
  | cons u us ih =>
    obtain ⟨⟨c, v, htext, hlexeme⟩, hrest⟩ := h
    rw [htext] at hrest
    obtain ⟨tokens', hread, hsame⟩ := ih hrest (offset + Text.bytes (c :: v))
    refine ⟨⟨u.kind, c :: v, offset⟩ :: tokens', ?_, .cons ⟨rfl, htext.symm⟩ hsame⟩
    rw [List.flatMap_cons, htext, List.cons_append, lexemesFrom, hlexeme.eq_ok]
    simp only [List.take_left, List.drop_left, hread]

end Scanning

/-! ## Dots -/

section Dots

variable {before : Option Char} {c : Char} {v r R : Text} {kind : Kind} {word : Keyword}

/-- A keyword does not touch a dot. -/
lemma wordKind_eq_keyword_iff {text : Text} : wordKind before text r = .keyword word ↔
    before ≠ some '.' ∧ '.' ∉ r.head? ∧ Keyword.ofWord? text = some word := by
  have hopens := opensWith_singleton '.' r
  unfold wordKind
  split
  · rename_i hdot
    rw [Bool.or_eq_true, beq_iff_eq] at hdot
    refine ⟨nofun, fun h => ?_⟩
    rcases hdot with hdot | hdot
    · exact absurd hdot h.1
    · exact absurd (hopens.1 hdot) h.2.1
  · rename_i hdot
    rw [Bool.or_eq_true, beq_iff_eq, not_or] at hdot
    have hrest : '.' ∉ r.head? := fun h => hdot.2 (hopens.2 h)
    split
    · rename_i k hk
      simp [hdot.1, hrest, hk]
    · rename_i hk
      simp [hk]

/-- A word that is no keyword does not spell one, or touches a dot. -/
lemma ofWord?_eq_none_of_wordKind {text : Text} (h : wordKind before text r = .identifier)
    (hbefore : before ≠ some '.') (hr : '.' ∉ r.head?) : Keyword.ofWord? text = none := by
  by_contra hsome
  obtain ⟨word, hword⟩ := Option.ne_none_iff_exists'.1 hsome
  rw [wordKind_eq_keyword_iff.2 ⟨hbefore, hr, hword⟩] at h
  cases h

/-- The kinds of punctuation marks. -/
def Kind.isPunctuation : Kind → Bool
  | .openParen | .closeParen | .comma | .dot | .semicolon => true
  | _ => false

/-- A punctuation mark is one character. -/
lemma Lexeme.of_isPunctuation (h : Lexeme before c v r kind) (hkind : kind.isPunctuation = true) :
    punctuation? c = some kind ∧ v = [] := by
  cases h with
  | punctuation h hv => exact ⟨h, hv⟩
  | word =>
    unfold wordKind at hkind
    split at hkind
    · cases hkind
    · split at hkind <;> cases hkind
  | _ => cases hkind

lemma Lexeme.eq_dot (h : Lexeme before c v r .dot) : c = '.' ∧ v = [] := by
  obtain ⟨hmark, hv⟩ := h.of_isPunctuation rfl
  rcases of_punctuation? hmark with h | h | h | h | h
  case inr.inr.inr.inl => exact ⟨h.1, hv⟩
  all_goals cases h.2

/-- What starts with a dot is a dot. -/
lemma Lexeme.of_dot (h : Lexeme before '.' v r kind) : kind = .dot ∧ v = [] := by
  cases h with
  | blockComment w hc => cases hc
  | string hc => cases hc
  | quoted hc => cases hc
  | ticked hc => cases hc
  | blank hc => cases hc
  | lineComment w hc => cases hc
  | number hc => cases hc
  | parameter h => rcases of_parameter? h with h | h | h <;> cases h
  | word hc => exact absurd hc (by decide)
  | punctuation h hv => exact ⟨(Option.some.inj h).symm, hv⟩
  | operator hc => cases hc.punctuation

/-- A cast and a bracket are operators.  Each other kind starts with a character that these do not
start with, but for a parameter, whose colon has a name behind it. -/
lemma Lexeme.operator_of_text (h : Lexeme before c v r kind)
    (htext : c :: v ∈ ["::".toList, "[".toList, "]".toList]) : kind = .operator := by
  have hc : (c = ':' ∧ v = [':']) ∨ (c = '[' ∧ v = []) ∨ (c = ']' ∧ v = []) := by
    simpa using htext
  cases h with
  | blockComment w hd => rcases hc with hc | hc | hc <;> cases hc.1.symm.trans hd
  | string hd => rcases hc with hc | hc | hc <;> cases hc.1.symm.trans hd
  | quoted hd => rcases hc with hc | hc | hc <;> cases hc.1.symm.trans hd
  | ticked hd => rcases hc with hc | hc | hc <;> cases hc.1.symm.trans hd
  | blank hd => rcases hc with ⟨rfl, -⟩ | ⟨rfl, -⟩ | ⟨rfl, -⟩ <;> cases hd
  | lineComment w hd => rcases hc with hc | hc | hc <;> cases hc.1.symm.trans hd
  | number hd => rcases hc with ⟨rfl, -⟩ | ⟨rfl, -⟩ | ⟨rfl, -⟩ <;> cases hd
  | parameter h =>
    rcases hc with ⟨rfl, rfl⟩ | ⟨rfl, -⟩ | ⟨rfl, -⟩
    · have hrun : runLength isWordChar ([':'] ++ r) = 0 :=
        runLength_append (v := []) (by simp) (by simp; decide)
      rw [parameter?_colon (expression?_eq_none (by simp)), if_pos hrun] at h
      cases h
    · rcases of_parameter? h with h | h | h <;> cases h
    · rcases of_parameter? h with h | h | h <;> cases h
  | word hd =>
    rcases hc with ⟨rfl, -⟩ | ⟨rfl, -⟩ | ⟨rfl, -⟩ <;> exact absurd hd (by decide)
  | punctuation h => rcases hc with ⟨rfl, -⟩ | ⟨rfl, -⟩ | ⟨rfl, -⟩ <;> cases h
  | operator => rfl

/-- In front of a word, only a dot ends in a dot.  A number would have gone on with the word, a name
has no dot in it, and no operator ends in one; so a name with a dot in front of it has a token of
its own for the dot. -/
lemma Lexeme.dot_of_getLast? (h : Lexeme before c v r kind) (hlast : '.' ∈ (c :: v).getLast?)
    (hr : ∃ d ∈ r.head?, isWordChar d = true) : kind = .dot := by
  obtain ⟨d, hd, hword⟩ := hr
  have hstops : ∀ {p : Char → Bool}, runLength p (v ++ r) = v.length → p d = true → kind = .dot :=
    fun hrun hp => absurd ((of_runLength_append hrun).2 d hd) (by simp [hp])
  have hquoted : ∀ q, (v.getLast? = some q) → q ≠ '.' → kind = .dot := fun q hq hne => by
    rw [List.getLast?_cons, hq] at hlast
    exact absurd (by simpa using hlast) hne
  cases h with
  | blockComment w hc hv h =>
    obtain ⟨front, hfront⟩ := suffix_take_through? h
    rw [List.take_left] at hfront
    refine hquoted '/' ?_ (by decide)
    rw [hv, ← hfront]
    simp [List.getLast?_cons, List.getLast?_append]
  | string hc h =>
    have hquote := getLast?_take_throughDoubledQuote? h
    rw [List.take_left] at hquote
    exact hquoted c hquote (by rw [hc]; decide)
  | quoted hc h =>
    have hquote := getLast?_take_throughDoubledQuote? h
    rw [List.take_left] at hquote
    exact hquoted c hquote (by rw [hc]; decide)
  | ticked hc h =>
    have hquote := getLast?_take_through? [] h
    rw [List.take_left] at hquote
    exact hquoted c hquote (by rw [hc]; decide)
  | blank hc h =>
    have hall : ∀ e ∈ c :: v, isSpacing e = true :=
      List.forall_mem_cons.2 ⟨hc, (of_runLength_append h).1⟩
    cases hall '.' (List.mem_of_getLast? hlast)
  | lineComment w hc hv h =>
    refine hstops h ?_
    rw [Bool.and_eq_true]
    constructor <;> refine decide_eq_true ?_ <;> rintro rfl <;> exact absurd hword (by decide)
  | number hc h =>
    have hnone := (number?_of_append h).2 d hd
    rw [hword] at hnone
    cases hnone
  | parameter h =>
    have hdigits : c ≠ '.' → runLength Char.isDigit (v ++ r) = v.length →
        Kind.parameter = .dot := by
      intro hc hrun
      rcases List.mem_cons.1 (List.mem_of_getLast? hlast) with h | h
      · exact absurd h.symm hc
      · cases (of_runLength_append hrun).1 '.' h
    rcases parameter?_cases h with ⟨-, he⟩ | ⟨-, -, hrun, -⟩ | ⟨rfl, -, hrun⟩ | ⟨rfl, hrun, -⟩
    · obtain ⟨w, hv, hw⟩ := exists_of_expression? he
      have hbrace := getLast?_take_through? [] hw
      rw [List.take_left] at hbrace
      refine hquoted '\x7d' ?_ (by decide)
      rw [hv, List.getLast?_append, hbrace]
      rfl
    · exact hstops hrun hword
    · exact hdigits (by decide) hrun
    · exact hdigits (by decide) hrun
  | word hc hnumber hparameter h => exact hstops h hword
  | punctuation h hv =>
    subst hv
    obtain rfl : c = '.' := by simpa using hlast
    exact (Option.some.inj h).symm
  | operator hc h =>
    by_cases hv : v = []
    · subst hv
      obtain rfl : c = '.' := by simpa using hlast
      cases hc.punctuation
    · have hall : longOperators.all (fun l => l.getLast? != some '.') = true := by decide
      have hne := List.all_eq_true.1 hall _ (mem_longOperators h hv)
      rw [bne_iff_ne] at hne
      exact absurd hlast hne

end Dots

/-! ## Digits in front of a dot

A number is read as long as possible, with a fraction, an exponent and a suffix, and then it must
not run into a word; if it does, there is no number at all.  So digits can be a name, and whether
they are is decided by what stands behind the dot.
-/

section Digits

variable {c : Char} {v r R : Text} {kind : Kind}

lemma runLength_eq_length {p : Char → Bool} (hv : ∀ d ∈ v, p d = true) :
    runLength p v = v.length := by
  simpa using runLength_append (R := []) hv (by simp)

/-- Digits and a dot are a number with a fraction, as far as it goes. -/
lemma numberLength_digits_dot (hv : ∀ d ∈ v, Char.isDigit d = true) (t : Text) :
    v.length + 1 ≤ numberLength (v ++ '.' :: t) := by
  have hdigits : runLength Char.isDigit (v ++ '.' :: t) = v.length :=
    runLength_append hv (by simp [Char.isDigit])
  simp only [numberLength, hdigits, List.drop_left, fractionLength]
  omega

/-- Digits and a dot, and what of an exponent or a suffix follows them. -/
lemma numberLength_digits_dot_eq (hv : ∀ d ∈ v, Char.isDigit d = true) {t : Text}
    (ht : ∀ d ∈ t.head?, Char.isDigit d = false) : numberLength (v ++ '.' :: t) =
      v.length + 1 + exponentLength t + suffixLength (t.drop (exponentLength t)) := by
  have hdigits : runLength Char.isDigit (v ++ '.' :: t) = v.length :=
    runLength_append hv (by simp [Char.isDigit])
  have hrun : runLength Char.isDigit t = 0 := runLength_append (v := []) (by simp) ht
  have hfraction : fractionLength ('.' :: t) = 1 := by
    rw [fractionLength, hrun]
  have hdrop : ∀ n, (v ++ '.' :: t).drop (v.length + 1 + n) = t.drop n := fun n => by
    rw [Nat.add_assoc, ← List.drop_drop, List.drop_left, Nat.add_comm 1, List.drop_succ_cons]
  simp only [numberLength, hdigits, List.drop_left, hfraction]
  rw [hdrop, show v.length + 1 = v.length + 1 + 0 from rfl, hdrop]
  rfl

/-- Digits are a number. -/
lemma number?_digits (hv : ∀ d ∈ v, Char.isDigit d = true) : number? v = some v.length := by
  have hlength : numberLength v = v.length := by
    simp [numberLength, runLength_eq_length hv, fractionLength, exponentLength, suffixLength]
  rw [number?_eq, hlength, List.drop_length]
  rfl

/-- Digits and a dot are a number, unless a word follows. -/
lemma number?_digits_dot (hv : ∀ d ∈ v, Char.isDigit d = true)
    (hr : ∀ d ∈ r.head?, isWordChar d = false) : (number? (v ++ '.' :: r)).isSome = true := by
  have hlength : numberLength (v ++ ['.']) = (v ++ ['.']).length := by
    rw [numberLength_digits_dot_eq hv (by simp)]
    simp [exponentLength, suffixLength]
  have hpoint : number? (v ++ ['.']) = some (v ++ ['.']).length := by
    rw [number?_eq, hlength, List.drop_length]
    rfl
  have happend := number?_append (v := v ++ ['.']) hr (fun _ => by simp [Char.isDigit])
    fun _ _ _ => by simp [hpoint]
  rw [List.append_assoc, List.singleton_append, hpoint] at happend
  rw [happend]
  rfl

/-- Digits that are no number stand in front of a dot and a word.  Digits alone are a number, and so
are digits with a dot and anything else behind it. -/
lemma exists_of_digits (hv : ∀ d ∈ v, Char.isDigit d = true)
    (hr : ∀ d ∈ r.head?, isWordChar d = false) (h : number? (v ++ r) = none) :
    ∃ e t, r = '.' :: e :: t ∧ isWordChar e = true := by
  have hdot : '.' ∈ r.head? := by
    by_contra hdot
    rw [number?_append hr (fun hd => absurd hd hdot) fun _ _ _ => by simp [number?_digits hv],
      number?_digits hv] at h
    cases h
  obtain ⟨t, rfl⟩ : ∃ t, r = '.' :: t := by
    cases r with
    | nil => cases hdot
    | cons d t =>
      obtain rfl : d = '.' := by simpa using hdot
      exact ⟨t, rfl⟩
  by_contra hnone
  have hsome : (number? (v ++ '.' :: t)).isSome = true := by
    refine number?_digits_dot hv fun d hd => ?_
    cases t with
    | nil => cases hd
    | cons e t =>
      obtain rfl : e = d := by simpa using hd
      by_contra hword
      exact hnone ⟨e, t, rfl, by simpa using hword⟩
  rw [h] at hsome
  cases hsome

lemma Lexeme.of_number {before : Option Char} (h : Lexeme before c v r .number) :
    c.isDigit = true ∧ number? (v ++ r) = some v.length := by
  generalize hk : Kind.number = k at h
  cases h with
  | number hc h => exact ⟨hc, h⟩
  | word => exact absurd (isWord_wordKind before (c :: v) r) (by simp [← hk, Kind.isWord])
  | punctuation h => rcases of_punctuation? h with h | h | h | h | h <;> cases hk.trans h.2
  | _ => cases hk

lemma Lexeme.of_parameter {before : Option Char} (h : Lexeme before c v r .parameter) :
    parameter? c (v ++ r) = some v.length := by
  generalize hk : Kind.parameter = k at h
  cases h with
  | parameter h => exact h
  | word => exact absurd (isWord_wordKind before (c :: v) r) (by simp [← hk, Kind.isWord])
  | punctuation h => rcases of_punctuation? h with h | h | h | h | h <;> cases hk.trans h.2
  | _ => cases hk

lemma Lexeme.of_string {before : Option Char} (h : Lexeme before c v r .string) : c = '\'' := by
  generalize hk : Kind.string = k at h
  cases h with
  | string hc => exact hc
  | word => exact absurd (isWord_wordKind before (c :: v) r) (by simp [← hk, Kind.isWord])
  | punctuation h => rcases of_punctuation? h with h | h | h | h | h <;> cases hk.trans h.2
  | _ => cases hk

/-- A number of digits only does not stand in front of a dot. -/
lemma Lexeme.not_dot_of_digits {before : Option Char} (h : Lexeme before c v r .number)
    (hv : ∀ d ∈ v, Char.isDigit d = true) : '.' ∉ r.head? := by
  intro hdot
  obtain ⟨t, rfl⟩ : ∃ t, r = '.' :: t := by
    cases r with
    | nil => cases hdot
    | cons d t =>
      obtain rfl : d = '.' := by simpa using hdot
      exact ⟨t, rfl⟩
  have h := h.of_number.2
  rw [number?_eq] at h
  split at h
  · cases h
  · have hle := numberLength_digits_dot hv t
    rw [Option.some.inj h] at hle
    omega

/-- What starts like a word is one, or a number, or a parameter. -/
lemma Lexeme.of_isWordChar {before : Option Char} (h : Lexeme before c v r kind)
    (hc : isWordChar c = true) : kind.isWord = true ∨ kind = .number ∨ kind = .parameter := by
  have hne : ∀ {d}, c = d → isWordChar d = false → False := fun hd hword => by
    rw [← hd, hc] at hword
    cases hword
  cases h with
  | blockComment w hd => exact (hne hd (by decide)).elim
  | string hd => exact (hne hd (by decide)).elim
  | quoted hd => exact (hne hd (by decide)).elim
  | ticked hd => exact (hne hd (by decide)).elim
  | blank hd =>
    rw [isSpacing_of_isWordChar hc] at hd
    cases hd
  | lineComment w hd => exact (hne hd (by decide)).elim
  | number => exact .inr (.inl rfl)
  | parameter => exact .inr (.inr rfl)
  | word => exact .inl (isWord_wordKind ..)
  | punctuation h =>
    rcases of_punctuation? h with ⟨hd, -⟩ | ⟨hd, -⟩ | ⟨hd, -⟩ | ⟨hd, -⟩ | ⟨hd, -⟩ <;>
      exact (hne hd (by decide)).elim
  | operator hd =>
    rw [hd.word] at hc
    cases hc

/-- Digits and a dot that are no number in front of a word are none where another rest follows.  The
word keeps them from being one; a sign behind it is excluded, for it could make an exponent of the
word. -/
lemma number?_digits_dot_eq_none {before : Option Char} {e : Char} {w : Text}
    (hv : ∀ d ∈ v, Char.isDigit d = true) (hx : Lexeme before e w r kind)
    (he : isWordChar e = true) (h : number? (v ++ '.' :: (e :: w ++ r)) = none)
    (hR : ∀ d ∈ R.head?, isWordChar d = false ∧ d ≠ '+' ∧ d ≠ '-') :
    number? (v ++ '.' :: (e :: w ++ R)) = none := by
  have hsplit : ∀ t, v ++ '.' :: (e :: w ++ t) = (v ++ '.' :: e :: w) ++ t := by simp
  have hrest : (∀ d ∈ r.head?, isWordChar d = false) →
      number? (v ++ '.' :: (e :: w ++ R)) = none := by
    intro hr
    rw [hsplit] at h ⊢
    exact number?_append_eq_none h hr (fun d hd => (hR d hd).1) (by simp [Char.isDigit])
      fun d hd => (hR d hd).2
  rcases hx.of_isWordChar he with hkind | rfl | rfl
  · exact hrest (hx.isWordText hkind).2.2.1
  · exact hrest (number?_of_append hx.of_number.2).2
  · -- a dollar sign behind the dot is enough
    obtain rfl : e = '$' := by
      rcases of_parameter? hx.of_parameter with rfl | rfl | rfl
      · exact absurd he (by decide)
      · exact absurd he (by decide)
      · rfl
    have hexponent : exponentLength ('$' :: w ++ R) = 0 := exponentLength_of_ne (by decide) _
    have hlength : numberLength (v ++ '.' :: ('$' :: w ++ R)) = v.length + 1 := by
      rw [numberLength_digits_dot_eq hv (by simp [Char.isDigit]), hexponent]
      simp [suffixLength]
    rw [number?_eq, hlength]
    simp [isWordChar]

end Digits

end SqlInlay.Sql
