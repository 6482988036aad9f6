import SqlInlay.Proofs.Sql.Tracing
import SqlInlay.Proofs.Sql.Words

/-!
# Lexing does not look at the case of letters

A query that is spelled in capitals is the same query to the lexer: the same tokens begin and end at
the same places, and only the letters in their texts differ.  This is what makes the case of
keywords a matter of style.

**Recognizers.**  Every recognizer treats an ASCII letter and its capital alike, for one of three
reasons.  The classes of characters are closed under capitals; the marks that are looked for have no
letters; and words are looked up in capitals.  There is a lemma for each recognizer, and each of
them says that counting goes the same way in the text in capitals.

**Letters take as many bytes as their capitals**, ASCII ones that is, so offsets do not change
either (`bytes_asciiUpper`).

**From capitals to any two texts.**  `lexeme_asciiUpper` compares a text with the text in capitals.
Two texts of the same letters have the same text in capitals, so each is lexed as that one is, and
their tokens differ in letters at most: `exists_recased_of_tokenize`.  Settling keywords keeps this,
for it looks at kinds and at the words that they name (`recased_settleKeywords`).
-/

namespace SqlInlay.Sql

open SqlInlay.Text

/-! ## Capitals

A function of characters that does not tell letters from capitals need only be checked on the
letters of ASCII, since capitals are the characters themselves anywhere else.
-/

lemma toUpper_of_le {c : Char} (h : ¬ c.toNat < 0x80) : c.toUpper = c := by
  refine dif_neg fun hlower => h ?_
  simp only [UInt32.le_iff_toNat_le] at hlower
  exact Nat.lt_of_le_of_lt hlower.2 (by decide)

/-- A function that does not tell letters from their capitals, being checked on ASCII. -/
lemma apply_toUpper {α : Type} [DecidableEq α] {p : Char → α}
    (h : ∀ n < 128, decide (p (Char.ofNat n).toUpper = p (Char.ofNat n)) = true) (c : Char) :
    p c.toUpper = p c := by
  by_cases hc : c.toNat < 0x80
  · exact of_decide_eq_true (forall_ascii (p := fun c => decide (p c.toUpper = p c)) h hc)
  · rw [toUpper_of_le hc]

lemma isSpacing_toUpper_eq (c : Char) : isSpacing c.toUpper = isSpacing c :=
  apply_toUpper (by decide) c

lemma isWordChar_toUpper (c : Char) : isWordChar c.toUpper = isWordChar c :=
  apply_toUpper (by decide) c

lemma isDigit_toUpper (c : Char) : c.toUpper.isDigit = c.isDigit :=
  apply_toUpper (by decide) c

lemma utf8Size_toUpper (c : Char) : c.toUpper.utf8Size = c.utf8Size :=
  apply_toUpper (by decide) c

@[simp] lemma asciiUpper_asciiUpper (t : Text) : t.asciiUpper.asciiUpper = t.asciiUpper := by
  have htwice : Char.toUpper ∘ Char.toUpper = Char.toUpper :=
    funext fun c => apply_toUpper (p := Char.toUpper) (by decide) c
  rw [asciiUpper, asciiUpper, List.map_map, htwice]

@[simp] lemma asciiUpper_cons (c : Char) (t : Text) :
    asciiUpper (c :: t) = c.toUpper :: t.asciiUpper := rfl

lemma asciiUpper_drop (n : Nat) (t : Text) : asciiUpper (t.drop n) = t.asciiUpper.drop n :=
  List.map_drop

lemma asciiUpper_take (n : Nat) (t : Text) : asciiUpper (t.take n) = t.asciiUpper.take n :=
  List.map_take

lemma length_asciiUpper (t : Text) : t.asciiUpper.length = t.length := List.length_map _

lemma bytes_asciiUpper (t : Text) : bytes t.asciiUpper = bytes t := by
  induction t with
  | nil => rfl
  | cons c t ih => rw [asciiUpper_cons, bytes_cons, bytes_cons, ih, utf8Size_toUpper]

/-! ## Recognizers

The lemmas follow the recognizers in their order.  Most go by induction on the text; the marks that
are looked for are given, and that they hold no letters is decided.
-/

lemma runLength_asciiUpper {p : Char → Bool} (hp : ∀ c, p c.toUpper = p c) (t : Text) :
    runLength p t.asciiUpper = runLength p t := by
  have hcomp : p ∘ Char.toUpper = p := funext hp
  rw [runLength, asciiUpper, List.takeWhile_map, hcomp, List.length_map, runLength]

lemma opensWith_asciiUpper {w : Text} (hw : isSymbolic w = true) (t : Text) :
    opensWith w t.asciiUpper = opensWith w t :=
  opensWith_eq_of_asciiUpper_eq hw (asciiUpper_asciiUpper t)

lemma after?_asciiUpper {w : Text} (hw : isSymbolic w = true) (t : Text) :
    after? w t.asciiUpper = (after? w t).map asciiUpper := by
  induction w generalizing t with
  | nil => rfl
  | cons d w ih =>
    obtain ⟨hd, hsymbolic⟩ : d.isAlpha = false ∧ isSymbolic w = true := by
      simpa [isSymbolic] using hw
    cases t with
    | nil => rfl
    | cons c t =>
      have hhead : d = c.toUpper ↔ d = c := by
        rw [eq_comm, toUpper_eq_iff hd, eq_comm]
      simp only [asciiUpper_cons, after?, hhead, ih hsymbolic]
      split <;> rfl

lemma find?_asciiUpper {w : Text} (hw : isSymbolic w = true) (t : Text) :
    find? w t.asciiUpper = find? w t := by
  induction t with
  | nil => rfl
  | cons c t ih =>
    rw [asciiUpper_cons, find?, find?, ← asciiUpper_cons, opensWith_asciiUpper hw, ih]

lemma through?_asciiUpper {w : Text} (hw : isSymbolic w = true) (t : Text) :
    through? w t.asciiUpper = through? w t := by
  rw [through?, find?_asciiUpper hw, through?]

lemma throughDoubledQuote?_asciiUpper {quote : Char} (hq : quote.isAlpha = false) (t : Text) :
    throughDoubledQuote? quote t.asciiUpper = throughDoubledQuote? quote t := by
  fun_induction throughDoubledQuote? quote t with
  | case1 => rfl
  | case2 => simp [asciiUpper, throughDoubledQuote?, (toUpper_eq_iff hq).2]
  | case3 u ih => simp [throughDoubledQuote?, (toUpper_eq_iff hq).2, ih]
  | case4 d u hd => simp [throughDoubledQuote?, toUpper_eq_iff hq, hd]
  | case5 c t hc ih =>
    rw [asciiUpper_cons, throughDoubledQuote?.eq_def]
    simp [toUpper_eq_iff hq, hc, ih]

lemma fractionLength_asciiUpper (t : Text) : fractionLength t.asciiUpper = fractionLength t := by
  rcases t with _ | ⟨c, t⟩
  · rfl
  · have hdot : c.toUpper = '.' ↔ c = '.' := toUpper_eq_iff (by decide)
    by_cases hc : c = '.'
    · simp [hc, fractionLength, runLength_asciiUpper isDigit_toUpper]
    · have hc' : c.toUpper ≠ '.' := mt hdot.1 hc
      rw [asciiUpper_cons, fractionLength.eq_2 _ (by simpa using hc'),
        fractionLength.eq_2 _ (by simpa using hc)]

lemma exponentLength_asciiUpper (t : Text) : exponentLength t.asciiUpper = exponentLength t := by
  rcases t with _ | ⟨e, t⟩
  · rfl
  · have he : (e.toUpper = 'e' || e.toUpper = 'E') = (e = 'e' || e = 'E') :=
      apply_toUpper (p := fun e : Char => decide (e = 'e') || decide (e = 'E'))
        (by decide) e
    rcases t with _ | ⟨c, t⟩
    · simp only [asciiUpper_cons, exponentLength, he]
      rfl
    · have hc : (c.toUpper = '+' || c.toUpper = '-') = (c = '+' || c = '-') :=
        apply_toUpper (p := fun c : Char => decide (c = '+') || decide (c = '-'))
          (by decide) c
      simp only [asciiUpper_cons, exponentLength, he, hc]
      simp only [← asciiUpper_cons, ← asciiUpper_drop, runLength_asciiUpper isDigit_toUpper]

lemma suffixLength_asciiUpper (t : Text) : suffixLength t.asciiUpper = suffixLength t := by
  rcases t with _ | ⟨c, t⟩
  · rfl
  · have hc : (c.toUpper ∈ ['l', 'L', 'f', 'F', 'd', 'D']) = (c ∈ ['l', 'L', 'f', 'F', 'd', 'D']) :=
      propext (decide_eq_decide.1 (apply_toUpper
        (p := fun c : Char => decide (c ∈ ['l', 'L', 'f', 'F', 'd', 'D'])) (by decide) c))
    simp only [asciiUpper_cons, suffixLength, hc]

lemma number?_asciiUpper (t : Text) : number? t.asciiUpper = number? t := by
  simp only [number?, ← asciiUpper_drop, runLength_asciiUpper isDigit_toUpper,
    fractionLength_asciiUpper, exponentLength_asciiUpper, suffixLength_asciiUpper]
  generalize t.drop _ = rest
  rcases rest with _ | ⟨c, rest⟩
  · rfl
  · simp only [asciiUpper_cons, isWordChar_toUpper]

lemma expression?_asciiUpper (t : Text) : expression? t.asciiUpper = expression? t := by
  rw [expression?, expression?, after?_asciiUpper (by decide)]
  cases after? "#\x7b" t with
  | none => rfl
  | some rest => exact congrArg (Option.map (· + 2)) (through?_asciiUpper (by decide) rest)

lemma parameter?_asciiUpper (c : Char) (t : Text) :
    parameter? c.toUpper t.asciiUpper = parameter? c t := by
  have hcolon : c.toUpper = ':' ↔ c = ':' := toUpper_eq_iff (by decide)
  have hquestion : c.toUpper = '?' ↔ c = '?' := toUpper_eq_iff (by decide)
  have hdollar : c.toUpper = '$' ↔ c = '$' := toUpper_eq_iff (by decide)
  simp only [parameter?, hcolon, hquestion, hdollar, expression?_asciiUpper,
    runLength_asciiUpper isDigit_toUpper, runLength_asciiUpper isWordChar_toUpper]

lemma operatorLength_asciiUpper (c : Char) (t : Text) :
    operatorLength c.toUpper t.asciiUpper = operatorLength c t := by
  have hfind : ∀ longs : List Text, (∀ w ∈ longs, isSymbolic w = true) →
      longs.find? (opensWith · (asciiUpper (c :: t))) = longs.find? (opensWith · (c :: t)) := by
    intro longs hlongs
    induction longs with
    | nil => rfl
    | cons w longs ih =>
      rw [List.find?_cons, List.find?_cons, opensWith_asciiUpper (hlongs w (List.mem_cons_self ..)),
        ih fun v hv => hlongs v (List.mem_cons_of_mem _ hv)]
  rw [operatorLength, ← asciiUpper_cons, hfind longOperators (by decide), operatorLength]

lemma ofWord?_asciiUpper (word : Text) : Keyword.ofWord? word.asciiUpper = Keyword.ofWord? word := by
  rw [Keyword.ofWord?, asciiUpper_asciiUpper, Keyword.ofWord?]

lemma wordKind_asciiUpper (before : Option Char) (word rest : Text) :
    wordKind (before.map Char.toUpper) word.asciiUpper rest.asciiUpper =
      wordKind before word rest := by
  have hbefore : (before.map Char.toUpper == some '.') = (before == some '.') := by
    cases before with
    | none => rfl
    | some c =>
      rw [Bool.eq_iff_iff]
      simpa using toUpper_eq_iff (c := c) (d := '.') (by decide)
  rw [wordKind, hbefore, opensWith_asciiUpper (by decide), ofWord?_asciiUpper, wordKind]

lemma punctuation?_toUpper (c : Char) : punctuation? c.toUpper = punctuation? c :=
  apply_toUpper (by decide) c

/-! ## Lexemes

A lexeme depends on the character in front, its first character and the rest, and all three may be
put in capitals.
-/

lemma plainLexeme_asciiUpper (before : Option Char) (c : Char) (t : Text) :
    plainLexeme (before.map Char.toUpper) c.toUpper t.asciiUpper = plainLexeme before c t := by
  have hdash : c.toUpper = '-' ↔ c = '-' := toUpper_eq_iff (by decide)
  have hline := runLength_asciiUpper (p := fun d => d ≠ '\n' && d ≠ '\r') (apply_toUpper
    (p := fun d : Char => decide (d ≠ '\n') && decide (d ≠ '\r')) (by decide)) t
  simp only [plainLexeme, isSpacing_toUpper_eq, runLength_asciiUpper isSpacing_toUpper_eq, hdash,
    opensWith_asciiUpper (show isSymbolic "-".toList = true by decide), hline,
    isDigit_toUpper, number?_asciiUpper, parameter?_asciiUpper, isWordChar_toUpper,
    runLength_asciiUpper isWordChar_toUpper, ← asciiUpper_take, ← asciiUpper_drop,
    ← asciiUpper_cons, wordKind_asciiUpper, punctuation?_toUpper, operatorLength_asciiUpper]

/-- **A text in capitals has the same lexemes**: the same kind, and as many characters.  The
character in front is put in capitals, too, for it decides whether a word touches a dot. -/
lemma lexeme_asciiUpper (before : Option Char) (c : Char) (t : Text) :
    lexeme (before.map Char.toUpper) c.toUpper t.asciiUpper = lexeme before c t := by
  have hslash : c.toUpper = '/' ↔ c = '/' := toUpper_eq_iff (by decide)
  have hquote : c.toUpper = '\'' ↔ c = '\'' := toUpper_eq_iff (by decide)
  have hdouble : c.toUpper = '"' ↔ c = '"' := toUpper_eq_iff (by decide)
  have hback : c.toUpper = '\x60' ↔ c = '\x60' := toUpper_eq_iff (by decide)
  unfold lexeme
  simp only [hslash, opensWith_asciiUpper (show isSymbolic "*".toList = true by decide),
    ← asciiUpper_drop, through?_asciiUpper (show isSymbolic "*/".toList = true by decide), hquote,
    hdouble, hback, plainLexeme_asciiUpper]
  split
  · rfl
  · split
    · rename_i hc
      subst hc
      rw [throughDoubledQuote?_asciiUpper (by decide)]
      rfl
    · split
      · rename_i hc
        subst hc
        rw [throughDoubledQuote?_asciiUpper (by decide)]
        rfl
      · split
        · rename_i hc
          subst hc
          exact congrArg _ (through?_asciiUpper (w := ['\x60']) (by decide) t)
        · rfl

/-! ## Tokens

Tokens are compared place by place: the same kind and offset, and the same text in capitals.
-/

/-- The token `u` is `t` with other letters in the place of its letters, small or capital. -/
structure Token.Recased (t u : Token) : Prop where
  kind : u.kind = t.kind
  offset : u.offset = t.offset
  letters : u.text.asciiUpper = t.text.asciiUpper

namespace Token.Recased

variable {t u : Token}

lemma isTrivia (h : t.Recased u) : u.isTrivia = t.isTrivia := by
  simp [Token.isTrivia, Token.isComment, h.kind]

lemma spellsAny (h : t.Recased u) : u.spellsAny = t.spellsAny := by
  have hspells : u.spells = t.spells := funext fun word => by rw [Token.spells, h.kind, Token.spells]
  funext words
  rw [Token.spellsAny, hspells, Token.spellsAny]

end Token.Recased

/-- Texts of the same letters are lexed alike.  The induction is along the lexemes of the first
text. -/
lemma exists_recased_of_lexemesFrom {before before' : Option Char} {offset : Nat} {t t' : Text}
    {raw : List Token} (h : lexemesFrom before offset t = .ok raw)
    (hbefore : before'.map Char.toUpper = before.map Char.toUpper)
    (hletters : t'.asciiUpper = t.asciiUpper) :
    ∃ raw', lexemesFrom before' offset t' = .ok raw' ∧ List.Forall₂ Token.Recased raw raw' := by
  fun_induction lexemesFrom before offset t generalizing before' t' raw with
  | case1 =>
    obtain rfl := Except.ok.inj h
    obtain rfl : t' = [] := List.map_eq_nil_iff.1 hletters
    exact ⟨[], by rw [lexemesFrom], .nil⟩
  | case2 => cases h
  | case3 => simp_all
  | case4 before offset c t kind n hlexeme text rest hrest =>
    rename_i ih
    obtain rfl := Except.ok.inj h
    rcases t' with _ | ⟨c', t'⟩
    · cases hletters
    obtain ⟨hc, ht⟩ : c'.toUpper = c.toUpper ∧ asciiUpper t' = asciiUpper t :=
      List.cons.inj hletters
    have hlexeme' : lexeme before' c' t' = .ok (kind, n) := by
      rw [← lexeme_asciiUpper, hbefore, hc, ht, lexeme_asciiUpper, hlexeme]
    have htext : asciiUpper (c' :: t'.take n) = asciiUpper text := by
      rw [asciiUpper_cons, hc, asciiUpper_take, ht, ← asciiUpper_take, ← asciiUpper_cons]
    have hbytes : bytes (c' :: t'.take n) = bytes text := by
      rw [← bytes_asciiUpper, htext, bytes_asciiUpper]
    have hlast : (c' :: t'.take n).getLast?.map Char.toUpper = text.getLast?.map Char.toUpper := by
      rw [← List.getLast?_map, ← List.getLast?_map]
      exact congrArg List.getLast? htext
    obtain ⟨raw', hraw', hrecased⟩ := ih hrest hlast
      (show asciiUpper (t'.drop n) = asciiUpper (t.drop n) by
        rw [asciiUpper_drop, ht, ← asciiUpper_drop])
    refine ⟨⟨kind, c' :: t'.take n, offset⟩ :: raw', ?_, .cons ⟨rfl, rfl, htext⟩ hrecased⟩
    rw [← hbytes] at hraw'
    simp only [lexemesFrom, hlexeme', hraw']

/-- Recased tokens are settled alike.  Whether a keyword is kept depends on the nearest tokens on
both sides that are not trivia, and only on how these are spelled without regard to case. -/
lemma recased_settleKeywords {raw raw' : List Token} (h : List.Forall₂ Token.Recased raw raw')
    {before before' : Option Token} (hbefore : Option.Rel Token.Recased before before') :
    List.Forall₂ Token.Recased (settleKeywords before raw) (settleKeywords before' raw') := by
  induction h generalizing before before' with
  | nil => exact .nil
  | @cons t u ts us htu hts ih =>
    have hafter : Option.Rel Token.Recased (ts.find? (!·.isTrivia)) (us.find? (!·.isTrivia)) := by
      clear ih
      induction hts with
      | nil => exact .none
      | @cons v w _ _ hvw _ ih =>
        rw [List.find?_cons, List.find?_cons, hvw.isTrivia]
        cases !v.isTrivia with
        | true => exact .some hvw
        | false => exact ih
    refine .cons ?_ (ih ?_)
    · have hkept : ∀ word, isKeptKeyword before' word (us.find? (!·.isTrivia)) =
          isKeptKeyword before word (ts.find? (!·.isTrivia)) := by
        intro word
        have hany : ∀ {b b' : Option Token}, Option.Rel Token.Recased b b' →
            (∀ words, b'.any (·.spellsAny words) = b.any (·.spellsAny words)) ∧
              b'.any (·.kind == .openParen) = b.any (·.kind == .openParen) := by
          intro b b' hb
          cases hb with
          | none => exact ⟨fun _ => rfl, rfl⟩
          | some hb => exact ⟨fun words => by simp [hb.spellsAny], by simp [hb.kind]⟩
        unfold isKeptKeyword
        simp only [(hany hbefore).1, (hany hafter).1, (hany hafter).2]
      unfold settle
      rw [htu.kind]
      split
      · rw [hkept]
        split
        · exact htu
        · exact ⟨rfl, htu.offset, htu.letters⟩
      · exact htu
    · rw [htu.isTrivia]
      split
      · exact hbefore
      · exact .some htu

/-- **Queries of the same letters** have the same tokens, recased.  That the first is tokenized is
enough for the second to be. -/
theorem exists_recased_of_tokenize {query query' : Text} {tokens : List Token}
    (h : tokenize query = .ok tokens) (hletters : query'.asciiUpper = query.asciiUpper) :
    ∃ tokens', tokenize query' = .ok tokens' ∧ List.Forall₂ Token.Recased tokens tokens' := by
  obtain ⟨raw, hraw, rfl⟩ := exists_of_tokenize h
  obtain ⟨raw', hraw', hrecased⟩ := exists_recased_of_lexemesFrom hraw rfl hletters
  refine ⟨settleKeywords none raw', ?_, recased_settleKeywords hrecased .none⟩
  rw [tokenize, hraw']
  rfl

end SqlInlay.Sql
