import SqlInlay.Proofs.Text.Search
import SqlInlay.Sql.Token.Lexeme
import SqlInlay.Sql.Layout.Page

/-!
# The texts of tokens

What the kind of a token says about its text.  Segmentation and layout go by kinds, and what they
write goes by texts, so whatever is said of an output needs a link between the two.  `Lexed`
collects what layout relies on: commas and semicolons read as such, a line comment opens with two
dashes, a keyword spells the keyword, and nothing but a blank begins with a blank or, line comments
apart, ends with one.

* `lexed_of_lexeme` — one lexeme, by the recognizer that found it.  For most kinds it is enough that
  their texts are `Solid`: they neither begin nor end with a blank.
* `lexed_of_tokenize` — the tokens of a query are like that, after keywords have been settled too,
  for a keyword that turns out to be a name keeps its text (`text_settle`).
* `flatMap_text_of_tokenize` — their texts, put together, are the query.
* `Lexed.solid_written` — what becomes of it in the output: whatever the case of keywords, what is
  written for a token is solid.  A keyword is made of ASCII letters, and letters stay letters in any
  case; a line comment is trimmed.
-/

namespace SqlInlay.Sql

open SqlInlay.Text

/-! ## Solid texts -/

/-- A text with something in it that neither begins nor ends with a blank.  What is solid can be
told from the blanks around it. -/
structure Solid (t : Text) : Prop where
  ne_nil : t ≠ []
  head : ∀ c ∈ t.head?, isSpacing c = false
  last : ∀ c ∈ t.getLast?, isSpacing c = false

lemma solid_of_forall {t : Text} (hne : t ≠ []) (h : ∀ c ∈ t, isSpacing c = false) : Solid t :=
  ⟨hne, fun c hc => h c (List.mem_of_mem_head? hc), fun c hc => h c (List.mem_of_getLast? hc)⟩

lemma solid_cons_concat {t : Text} {c d : Char} (hc : isSpacing c = false)
    (ht : (c :: t).getLast? = some d) (hd : isSpacing d = false) : Solid (c :: t) := by
  refine ⟨by simp, by simpa using hc, fun e he => ?_⟩
  rw [ht] at he
  obtain rfl : d = e := by simpa using he
  exact hd

lemma isSpacing_of_isWordChar {c : Char} (h : isWordChar c = true) : isSpacing c = false := by
  by_contra hc
  simp only [Bool.not_eq_false, isSpacing, Bool.or_eq_true, beq_iff_eq] at hc
  rcases hc with ((rfl | rfl) | rfl) | rfl <;> exact absurd h (by decide)

lemma isSpacing_of_isDigit {c : Char} (h : c.isDigit = true) : isSpacing c = false := by
  by_contra hc
  simp only [Bool.not_eq_false, isSpacing, Bool.or_eq_true, beq_iff_eq] at hc
  rcases hc with ((rfl | rfl) | rfl) | rfl <;> exact absurd h (by decide)

/-- White space of a query is white space. -/
lemma isBlank_of_isSpacing {c : Char} (h : isSpacing c = true) : isBlank c = true := by
  simp only [isSpacing, Bool.or_eq_true, beq_iff_eq] at h
  rcases h with ((rfl | rfl) | rfl) | rfl <;> rfl

/-! ## Recognizers

A recognizer says how many characters belong to a lexeme.  What is needed of each is the last of
them: a quote, a brace, a digit, a letter or a sign, and never a blank.
-/

lemma take_runLength (p : Char → Bool) (t : Text) : t.take (runLength p t) = t.takeWhile p := by
  rw [runLength]
  exact (List.prefix_iff_eq_take.1 (List.takeWhile_prefix p)).symm

lemma mem_take_runLength {p : Char → Bool} {t : Text} {c : Char}
    (h : c ∈ t.take (runLength p t)) : p c = true := by
  rw [take_runLength] at h
  exact List.mem_takeWhile_imp h

/-- A delimited text ends with its quote. -/
lemma getLast?_take_throughDoubledQuote? {quote : Char} {t : Text} {n : Nat}
    (h : throughDoubledQuote? quote t = some n) : (t.take n).getLast? = some quote := by
  fun_induction throughDoubledQuote? quote t generalizing n with
  | case1 => simp at h
  | case2 =>
    obtain rfl : 1 = n := by simpa using h
    rfl
  | case3 u ih =>
    obtain ⟨m, hm, rfl⟩ := Option.map_eq_some_iff.1 h
    have := ih hm
    simp [List.take_succ_cons, List.getLast?_cons, this]
  | case4 d u hd =>
    obtain rfl : 1 = n := by simpa using h
    rfl
  | case5 c t hc ih =>
    obtain ⟨m, hm, rfl⟩ := Option.map_eq_some_iff.1 h
    have := ih hm
    simp [List.take_succ_cons, List.getLast?_cons, this]

/-- A text through its closing mark ends with the mark. -/
lemma suffix_take_through? {closing t : Text} {n : Nat} (h : through? closing t = some n) :
    closing <:+ t.take n := by
  obtain ⟨m, hm, rfl⟩ := Option.map_eq_some_iff.1 h
  obtain ⟨front, back, rfl, rfl⟩ := exists_of_find? hm
  refine ⟨front, ?_⟩
  rw [← List.length_append, List.take_left]

lemma getLast?_take_through? (closing : Text) {c : Char} {t : Text} {n : Nat}
    (h : through? (closing ++ [c]) t = some n) : (t.take n).getLast? = some c := by
  obtain ⟨front, hfront⟩ := suffix_take_through? h
  rw [← hfront, ← List.append_assoc]
  exact List.getLast?_concat

lemma isSpacing_of_mem_take_fraction {t : Text} {c : Char}
    (h : c ∈ t.take (fractionLength t)) : isSpacing c = false := by
  unfold fractionLength at h
  split at h
  · rw [Nat.add_comm, List.take_succ_cons] at h
    rcases List.mem_cons.1 h with rfl | h
    · rfl
    · exact isSpacing_of_isDigit (mem_take_runLength h)
  · simp at h

lemma isSpacing_of_mem_take_exponent {t : Text} {c : Char}
    (h : c ∈ t.take (exponentLength t)) : isSpacing c = false := by
  rcases t with _ | ⟨e, t⟩
  · simp at h
  · simp -zeta only [exponentLength] at h
    split at h
    · rename_i he
      extract_lets sign digits at h
      have hsign : ∀ d ∈ t.take sign, isSpacing d = false := by
        rcases t with _ | ⟨s, t⟩
        · simp
        · intro d hd
          simp only [sign] at hd
          split at hd
          · rename_i hs
            obtain rfl : d = s := by simpa using hd
            simp only [Bool.or_eq_true, decide_eq_true_eq] at hs
            rcases hs with rfl | rfl <;> rfl
          · simp at hd
      split at h
      · simp at h
      · rw [Nat.add_assoc, Nat.add_comm 1, List.take_succ_cons, List.take_add] at h
        rcases List.mem_cons.1 h with rfl | h
        · simp only [Bool.or_eq_true, decide_eq_true_eq] at he
          rcases he with rfl | rfl <;> rfl
        · rcases List.mem_append.1 h with h | h
          · exact hsign c h
          · exact isSpacing_of_isDigit (mem_take_runLength h)
    · simp at h

lemma isSpacing_of_mem_take_suffix {t : Text} {c : Char}
    (h : c ∈ t.take (suffixLength t)) : isSpacing c = false := by
  unfold suffixLength at h
  split at h
  · split at h
    · rename_i hd
      obtain rfl : c = _ := by simpa using h
      simp only [List.mem_cons, List.not_mem_nil, or_false] at hd
      rcases hd with rfl | rfl | rfl | rfl | rfl | rfl <;> rfl
    · simp at h
  · simp at h

/-- A number has no blank in it. -/
lemma isSpacing_of_mem_take_number? {t : Text} {n : Nat} (h : number? t = some n) {c : Char}
    (hc : c ∈ t.take n) : isSpacing c = false := by
  unfold number? at h
  extract_lets digits fraction exponent suffix length at h
  have hlength : n = digits + fraction + exponent + suffix := by
    split at h
    · split at h
      · simp at h
      · exact (Option.some.inj h).symm
    · exact (Option.some.inj h).symm
  rw [hlength, List.take_add, List.take_add, List.take_add] at hc
  simp only [List.mem_append] at hc
  rcases hc with ((hc | hc) | hc) | hc
  · exact isSpacing_of_isDigit (mem_take_runLength hc)
  · exact isSpacing_of_mem_take_fraction hc
  · exact isSpacing_of_mem_take_exponent hc
  · exact isSpacing_of_mem_take_suffix hc

/-- A run of characters that are no blanks is solid. -/
lemma solid_run {p : Char → Bool} (hp : ∀ d, p d = true → isSpacing d = false) {c : Char}
    (hc : isSpacing c = false) (t : Text) : Solid (c :: t.take (runLength p t)) := by
  refine solid_of_forall (List.cons_ne_nil _ _) ?_
  intro d hd
  rcases List.mem_cons.1 hd with rfl | hd
  · exact hc
  · exact hp d (mem_take_runLength hd)

/-- An expression parameter ends in a brace. -/
lemma solid_of_expression? {c : Char} (hc : isSpacing c = false) {t : Text} {n : Nat}
    (h : expression? t = some n) : Solid (c :: t.take n) := by
  unfold expression? at h
  split at h
  · rename_i rest hafter
    obtain ⟨k, hk, rfl⟩ := Option.map_eq_some_iff.1 h
    obtain rfl := eq_append_of_after? hafter
    have hlast := getLast?_take_through? [] hk
    have htake : ("#\x7b".toList ++ rest).take (k + 2) = '#' :: '\x7b' :: rest.take k := rfl
    refine solid_cons_concat (d := '\x7d') hc ?_ rfl
    rw [List.getLast?_cons, htake, List.getLast?_cons, List.getLast?_cons, hlast]
    rfl
  · cases h

/-- A parameter does not end with a blank: it ends with the brace of an expression, or with a
character of a name or of a number. -/
lemma solid_of_parameter? {c : Char} {t : Text} {n : Nat} (h : parameter? c t = some n) :
    Solid (c :: t.take n) := by
  unfold parameter? at h
  extract_lets expression at h
  have hexpression : expression = if (decide (c = ':') || decide (c = '?')) = true then
      expression? t else none := rfl
  clear_value expression
  cases expression with
  | some m =>
    obtain rfl : m = n := Option.some.inj h
    replace hexpression := hexpression.symm
    split at hexpression
    · rename_i hc
      refine solid_of_expression? ?_ hexpression
      simp only [Bool.or_eq_true, decide_eq_true_eq] at hc
      rcases hc with rfl | rfl <;> rfl
    · cases hexpression
  | none =>
    simp only at h
    split at h
    · rename_i hc
      subst hc
      split at h
      · cases h
      · rw [← Option.some.inj h]
        exact solid_run (fun d => isSpacing_of_isWordChar) rfl t
    · split at h
      · rename_i hc
        subst hc
        rw [← Option.some.inj h]
        exact solid_run (fun d => isSpacing_of_isDigit) rfl t
      · split at h
        · rename_i hc
          subst hc
          split at h
          · cases h
          · rw [← Option.some.inj h]
            exact solid_run (fun d => isSpacing_of_isDigit) rfl t
        · cases h

/-- An operator does not end with a blank. -/
lemma solid_of_operator {c : Char} (hc : isSpacing c = false) (t : Text) :
    Solid (c :: t.take (operatorLength c t)) := by
  unfold operatorLength
  split
  · rename_i long hlong
    have hmem := List.mem_of_find?_eq_some hlong
    have hopens := List.find?_some hlong
    obtain ⟨rest, hrest⟩ := opensWith_iff.1 hopens
    have htake : c :: t.take (long.length - 1) = long := by
      cases long with
      | nil => exact absurd hmem (by decide)
      | cons d long =>
        obtain ⟨rfl, rfl⟩ := List.cons.inj hrest
        simp
    rw [htake]
    have hall : longOperators.all (fun l => !l.isEmpty && l.all (!isSpacing ·)) = true := by
      decide
    have hsolid : long ≠ [] ∧ ∀ d ∈ long, isSpacing d = false := by
      simpa using List.all_eq_true.1 hall long hmem
    exact solid_of_forall hsolid.1 hsolid.2
  · simpa using solid_of_forall (by simp) (by simpa using hc)

/-! ## Lexemes -/

/-- What the kind of a token says about its text. -/
structure Lexed (kind : Kind) (text : Text) : Prop where
  comma : kind = .comma → text = ",".toList
  semicolon : kind = .semicolon → text = ";".toList
  keyword : ∀ word, kind = .keyword word → Keyword.ofWord? text = some word
  lineComment : kind = .lineComment → "--".toList <+: text
  blank : kind = .blank → ∀ c ∈ text, isSpacing c = true
  solid : kind ≠ .blank → kind ≠ .lineComment → Solid text

/-- A lexeme of a kind that asks for nothing but a solid text. -/
lemma lexed_of_solid {kind : Kind} {text : Text}
    (h : kind ∈ [.identifier, .quotedIdentifier, .operator, .openParen, .closeParen, .dot,
      .string, .number, .parameter, .blockComment])
    (hs : Solid text) : Lexed kind text where
  comma hk := by
    subst hk
    simp at h
  semicolon hk := by
    subst hk
    simp at h
  keyword word hk := by
    subst hk
    simp at h
  lineComment hk := by
    subst hk
    simp at h
  blank hk := by
    subst hk
    simp at h
  solid _ _ := hs

lemma lexed_of_punctuation? {c : Char} {kind : Kind} (h : punctuation? c = some kind) :
    Lexed kind [c] := by
  have hsolid : isSpacing c = false → Solid [c] := fun hc =>
    solid_of_forall (by simp) (by simpa using hc)
  unfold punctuation? at h
  split at h
  · exact Option.some.inj h ▸ lexed_of_solid (by simp) (hsolid rfl)
  · exact Option.some.inj h ▸ lexed_of_solid (by simp) (hsolid rfl)
  · obtain rfl := Option.some.inj h
    exact ⟨fun _ => rfl, by simp, by simp, by simp, by simp, fun _ _ => hsolid rfl⟩
  · exact Option.some.inj h ▸ lexed_of_solid (by simp) (hsolid rfl)
  · obtain rfl := Option.some.inj h
    exact ⟨by simp, fun _ => rfl, by simp, by simp, by simp, fun _ _ => hsolid rfl⟩
  · simp at h

lemma lexed_plainLexeme (before : Option Char) (c : Char) (t : Text) :
    Lexed (plainLexeme before c t).1 (c :: t.take (plainLexeme before c t).2) := by
  unfold plainLexeme
  split
  · rename_i hc
    refine ⟨by simp, by simp, by simp, by simp, fun _ d hd => ?_, by simp⟩
    rcases List.mem_cons.1 hd with rfl | hd
    · exact hc
    · exact mem_take_runLength hd
  · rename_i hc
    rw [Bool.not_eq_true] at hc
    split
    · rename_i hdash
      simp only [Bool.and_eq_true, decide_eq_true_eq] at hdash
      obtain ⟨rfl, hopens⟩ := hdash
      obtain ⟨rest, rfl⟩ := opensWith_iff.1 hopens
      constructor <;> simp [runLength]
    · split
      · rename_i n hnumber
        split at hnumber
        · rename_i hdigit
          refine lexed_of_solid (by simp) (solid_of_forall (by simp) fun d hd => ?_)
          rcases List.mem_cons.1 hd with rfl | hd
          · exact hc
          · exact isSpacing_of_mem_take_number? hnumber hd
        · simp at hnumber
      · split
        · rename_i n hparameter
          exact lexed_of_solid (by simp) (solid_of_parameter? hparameter)
        · split
          · rename_i hword
            have hsolid := solid_run (fun d => isSpacing_of_isWordChar) hc t
            simp only [wordKind]
            split
            · exact lexed_of_solid (by simp) hsolid
            · split
              · rename_i word hk
                constructor <;> simp_all
              · exact lexed_of_solid (by simp) hsolid
          · split
            · exact lexed_of_punctuation? ‹_›
            · exact lexed_of_solid (by simp) (solid_of_operator hc t)

/-- What `delimited` answers is the kind it was asked for. -/
lemma of_delimited {kind k : Kind} {cause : Unterminated} {found : Option Nat} {n : Nat}
    (h : delimited kind cause found = .ok (k, n)) : k = kind ∧ found = some n := by
  cases found with
  | none => simp [delimited] at h
  | some m =>
    simp only [delimited, Except.ok.injEq, Prod.mk.injEq] at h
    exact ⟨h.1.symm, congrArg some h.2⟩

/-- The text of a lexeme suits its kind.  What is delimited ends with its delimiter and so not with
a blank; all else is in `lexed_plainLexeme`. -/
lemma lexed_of_lexeme {before : Option Char} {c : Char} {t : Text} {kind : Kind} {n : Nat}
    (h : lexeme before c t = .ok (kind, n)) : Lexed kind (c :: t.take n) := by
  unfold lexeme at h
  split at h
  · rename_i hopens
    simp only [Bool.and_eq_true, decide_eq_true_eq] at hopens
    obtain ⟨rfl, hfound⟩ := of_delimited h
    obtain ⟨m, hm, rfl⟩ := Option.map_eq_some_iff.1 hfound
    obtain ⟨rest, rfl⟩ := opensWith_iff.1 hopens.2
    have hlast := getLast?_take_through? ['*'] hm
    refine lexed_of_solid (by simp) (solid_cons_concat (d := '/') (by rw [hopens.1]; rfl) ?_ rfl)
    have htake : ("*".toList ++ rest).take (m + 1) = '*' :: rest.take m := rfl
    rw [htake, List.getLast?_cons, List.getLast?_cons]
    have hdrop : ("*".toList ++ rest).drop 1 = rest := rfl
    rw [hdrop] at hlast
    rw [hlast]
    rfl
  · split at h
    · rename_i hc
      obtain ⟨rfl, hfound⟩ := of_delimited h
      have hlast := getLast?_take_throughDoubledQuote? hfound
      refine lexed_of_solid (by simp) (solid_cons_concat (d := c) (by rw [hc]; rfl) ?_
        (by rw [hc]; rfl))
      rw [List.getLast?_cons, hlast]
      rfl
    · split at h
      · rename_i hc
        obtain ⟨rfl, hfound⟩ := of_delimited h
        have hlast := getLast?_take_throughDoubledQuote? hfound
        refine lexed_of_solid (by simp) (solid_cons_concat (d := c) (by rw [hc]; rfl) ?_
          (by rw [hc]; rfl))
        rw [List.getLast?_cons, hlast]
        rfl
      · split at h
        · rename_i hc
          obtain ⟨rfl, hfound⟩ := of_delimited h
          have hlast := getLast?_take_through? [] hfound
          refine lexed_of_solid (by simp) (solid_cons_concat (d := c) (by rw [hc]; rfl) ?_
            (by rw [hc]; rfl))
          rw [List.getLast?_cons, hlast]
          rfl
        · have hplain := lexed_plainLexeme before c t
          rw [Except.ok.inj h] at hplain
          exact hplain

/-! ## Tokens of a query -/

/-- The text of a token suits its kind. -/
def Token.Lexed (t : Token) : Prop := Sql.Lexed t.kind t.text

lemma lexed_of_lexemesFrom {before : Option Char} {offset : Nat} {t : Text} {tokens : List Token}
    (h : lexemesFrom before offset t = .ok tokens) : ∀ u ∈ tokens, u.Lexed := by
  fun_induction lexemesFrom before offset t generalizing tokens with
  | case1 =>
    obtain rfl : [] = tokens := by simpa using h
    simp
  | case2 => simp at h
  | case3 => simp_all
  | case4 before offset c t kind n hlexeme text rest hrest =>
    rename_i ih
    obtain rfl := Except.ok.inj h
    intro u hu
    rcases List.mem_cons.1 hu with rfl | hu
    · exact lexed_of_lexeme hlexeme
    · exact ih hrest u hu

/-- A keyword that turns out to be a name keeps its text. -/
lemma text_settle (before : Option Token) (t : Token) (after : Option Token) :
    (settle before t after).text = t.text := by
  unfold settle
  split
  · split <;> rfl
  · rfl

lemma flatMap_text_settleKeywords (before : Option Token) (tokens : List Token) :
    (settleKeywords before tokens).flatMap Token.text = tokens.flatMap Token.text := by
  induction tokens generalizing before with
  | nil => rfl
  | cons t ts ih => simp [settleKeywords, text_settle, ih]

lemma flatMap_text_of_lexemesFrom {before : Option Char} {offset : Nat} {t : Text}
    {tokens : List Token} (h : lexemesFrom before offset t = .ok tokens) :
    tokens.flatMap Token.text = t := by
  fun_induction lexemesFrom before offset t generalizing tokens with
  | case1 =>
    obtain rfl : [] = tokens := by simpa using h
    rfl
  | case2 => simp at h
  | case3 => simp_all
  | case4 before offset c t kind n hlexeme text rest hrest =>
    rename_i ih
    obtain rfl := Except.ok.inj h
    rw [List.flatMap_cons, ih hrest]
    exact congrArg (c :: ·) (List.take_append_drop n t)

lemma Token.Lexed.settle {t : Token} (h : t.Lexed) (before after : Option Token) :
    (settle before t after).Lexed := by
  unfold Sql.settle
  split
  · rename_i word hword
    split
    · exact h
    · refine lexed_of_solid (by simp) (h.solid ?_ ?_) <;> simp [hword]
  · exact h

lemma lexed_settleKeywords {tokens : List Token} (h : ∀ t ∈ tokens, t.Lexed)
    (before : Option Token) : ∀ t ∈ settleKeywords before tokens, t.Lexed := by
  induction tokens generalizing before with
  | nil => simp [settleKeywords]
  | cons t ts ih =>
    intro u hu
    rcases List.mem_cons.1 hu with rfl | hu
    · exact (h t (List.mem_cons_self ..)).settle _ _
    · exact ih (fun u hu => h u (List.mem_cons_of_mem _ hu)) _ u hu

lemma exists_of_tokenize {query : Text} {tokens : List Token} (h : tokenize query = .ok tokens) :
    ∃ raw, lexemesFrom none 0 query = .ok raw ∧ settleKeywords none raw = tokens := by
  unfold tokenize at h
  cases hlex : lexemesFrom none 0 query with
  | error f => simp [hlex, Except.map] at h
  | ok raw => exact ⟨raw, rfl, by simpa [hlex, Except.map] using h⟩

/-- **The tokens of a query** have the texts that their kinds promise: marks read like marks, a
keyword spells its word, blanks are blank, and anything but a blank or a line comment is solid. -/
theorem lexed_of_tokenize {query : Text} {tokens : List Token} (h : tokenize query = .ok tokens) :
    ∀ t ∈ tokens, t.Lexed := by
  obtain ⟨raw, hraw, rfl⟩ := exists_of_tokenize h
  exact lexed_settleKeywords (lexed_of_lexemesFrom hraw) none

/-- The texts of the tokens, put together, are the query. -/
theorem flatMap_text_of_tokenize {query : Text} {tokens : List Token}
    (h : tokenize query = .ok tokens) : tokens.flatMap Token.text = query := by
  obtain ⟨raw, hraw, rfl⟩ := exists_of_tokenize h
  rw [flatMap_text_settleKeywords, flatMap_text_of_lexemesFrom hraw]

/-! ## What is written for a token

Case changes are taken from tables of Unicode, which are too large to be looked through.  Keywords
have ASCII letters only, so the tables are consulted for those and the rest is known by their codes
(`forall_ascii`).
-/

/-- The text that stands in a layout for a token of some kind and text: a keyword in its case, a
line comment without the white space at its end, anything else as it is. -/
def written (case : KeywordCase) (kind : Kind) (text : Text) : Text :=
  match kind with
  | .keyword _ => case.apply text
  | .lineComment => trimEnd text
  | _ => text

/-- The letters of ASCII by their codes. -/
lemma isAlpha_iff (c : Char) :
    c.isAlpha = true ↔ (65 ≤ c.toNat ∧ c.toNat ≤ 90) ∨ (97 ≤ c.toNat ∧ c.toNat ≤ 122) := by
  change (decide (c.val ≥ 'A'.val ∧ c.val ≤ 'Z'.val) ||
    (decide (c.val ≥ 'a'.val) && decide (c.val ≤ 'z'.val))) = true ↔ _
  simp only [Bool.or_eq_true, Bool.and_eq_true, decide_eq_true_eq, ge_iff_le,
    UInt32.le_iff_toNat_le]
  rfl

lemma toNat_lt_of_isAlpha {c : Char} (h : c.isAlpha = true) : c.toNat < 0x80 := by
  rw [isAlpha_iff] at h
  omega

/-- A predicate on characters that holds of every ASCII character, being checked on each. -/
lemma forall_ascii {p : Char → Bool} (h : ∀ n < 128, p (Char.ofNat n) = true) {c : Char}
    (hc : c.toNat < 0x80) : p c = true := by
  have hp := h c.toNat hc
  rwa [Char.ofNat_toNat] at hp

/-- A letter that has a capital is an ASCII letter. -/
lemma isAlpha_of_isUpper_toUpper {c : Char} (h : c.toUpper.isUpper = true) :
    c.isAlpha = true := by
  by_cases hc : c.toNat < 0x80
  · have hletter := forall_ascii (p := fun c => !c.toUpper.isUpper || c.isAlpha)
      (by decide) hc
    simpa [h] using hletter
  · have hlower : ¬ (c.val ≥ 'a'.val ∧ c.val ≤ 'z'.val) := by
      intro hlower
      simp only [ge_iff_le, UInt32.le_iff_toNat_le] at hlower
      exact hc (Nat.lt_of_le_of_lt hlower.2 (by decide))
    have hsame : c.toUpper = c := dif_neg hlower
    rw [hsame] at h
    change (c.isUpper || c.isLower) = true
    rw [h, Bool.true_or]

/-- A keyword is made of ASCII letters. -/
lemma isAlpha_of_ofWord? {text : Text} {word : Keyword} (h : Keyword.ofWord? text = some word) :
    text ≠ [] ∧ ∀ c ∈ text, c.isAlpha = true := by
  have hspelling : text.map Char.toUpper = word.spelling := by
    have hfound := List.find?_some h
    rw [beq_iff_eq] at hfound
    exact hfound.symm
  have hletters : word.spelling ≠ [] ∧ ∀ c ∈ word.spelling, c.isUpper = true := by
    have hall : Keyword.all.all
        (fun k => !k.spelling.isEmpty && k.spelling.all Char.isUpper) = true := by
      decide
    simpa using List.all_eq_true.1 hall word (Keyword.mem_all word)
  rw [← hspelling] at hletters
  refine ⟨by simpa using hletters.1, fun c hc => ?_⟩
  exact isAlpha_of_isUpper_toUpper (hletters.2 c.toUpper (List.mem_map_of_mem hc))

/-- Letters in capitals, letter by letter. -/
lemma toUpper_of_ascii {t : Text} (h : ∀ c ∈ t, c.toNat < 0x80) :
    toUpper t = t.map Char.toUpper := by
  induction t with
  | nil => rfl
  | cons c t ih =>
    have hc := h c (List.mem_cons_self ..)
    have ht := ih fun d hd => h d (List.mem_cons_of_mem _ hd)
    rw [toUpper] at ht ⊢
    simp [upperOf, hc, ht]

lemma lowerAfter_of_ascii {t : Text} (h : ∀ c ∈ t, c.toNat < 0x80) (before : Text) :
    lowerAfter before t = t.map Char.toLower := by
  induction t generalizing before with
  | nil => rfl
  | cons c t ih =>
    have hc := h c (List.mem_cons_self ..)
    have hsigma : c.toNat ≠ 0x3A3 := by omega
    rw [lowerAfter, ih fun d hd => h d (List.mem_cons_of_mem _ hd)]
    simp [hsigma, lowerOf, hc]

/-- Small letters, letter by letter. -/
lemma toLower_of_ascii {t : Text} (h : ∀ c ∈ t, c.toNat < 0x80) :
    toLower t = t.map Char.toLower :=
  lowerAfter_of_ascii h []

lemma isSpacing_of_isAlpha {c : Char} (h : c.isAlpha = true) : isSpacing c = false := by
  by_contra hc
  simp only [Bool.not_eq_false, isSpacing, Bool.or_eq_true, beq_iff_eq] at hc
  rcases hc with ((rfl | rfl) | rfl) | rfl <;> exact absurd h (by decide)

lemma isSpacing_toUpper {c : Char} (h : c.isAlpha = true) : isSpacing c.toUpper = false := by
  have hletter := forall_ascii (p := fun c => !c.isAlpha || !isSpacing c.toUpper)
    (by decide) (toNat_lt_of_isAlpha h)
  simpa [h] using hletter

lemma isSpacing_toLower {c : Char} (h : c.isAlpha = true) : isSpacing c.toLower = false := by
  have hletter := forall_ascii (p := fun c => !c.isAlpha || !isSpacing c.toLower)
    (by decide) (toNat_lt_of_isAlpha h)
  simpa [h] using hletter

/-- A keyword is solid in every case. -/
lemma solid_apply_of_ofWord? {text : Text} {word : Keyword}
    (h : Keyword.ofWord? text = some word) (case : KeywordCase) : Solid (case.apply text) := by
  obtain ⟨hne, halpha⟩ := isAlpha_of_ofWord? h
  have hascii : ∀ c ∈ text, c.toNat < 0x80 := fun c hc => toNat_lt_of_isAlpha (halpha c hc)
  cases case with
  | preserve => exact solid_of_forall hne fun c hc => isSpacing_of_isAlpha (halpha c hc)
  | upper =>
    rw [KeywordCase.apply, toUpper_of_ascii hascii]
    refine solid_of_forall (by simpa using hne) fun c hc => ?_
    obtain ⟨d, hd, rfl⟩ := List.mem_map.1 hc
    exact isSpacing_toUpper (halpha d hd)
  | lower =>
    rw [KeywordCase.apply, toLower_of_ascii hascii]
    refine solid_of_forall (by simpa using hne) fun c hc => ?_
    obtain ⟨d, hd, rfl⟩ := List.mem_map.1 hc
    exact isSpacing_toLower (halpha d hd)

/-- A line comment is solid once it is trimmed. -/
lemma solid_trimEnd_of_dashes {text : Text} (h : "--".toList <+: text) :
    Solid (trimEnd text) := by
  obtain ⟨rest, rfl⟩ := h
  have hsplit : trimEnd ("--".toList ++ rest) = '-' :: trimEnd ('-' :: rest) :=
    trimEndWhile_append_cons ['-'] rest rfl
  refine ⟨by rw [hsplit]; simp, by rw [hsplit]; simp [isSpacing], fun c hc => ?_⟩
  by_contra hspacing
  rw [Bool.not_eq_false] at hspacing
  have hblank := not_of_mem_getLast?_trimEndWhile hc
  rw [isBlank_of_isSpacing hspacing] at hblank
  simp at hblank

/-- What is written for a token neither begins nor ends with a blank. -/
lemma Lexed.solid_written {kind : Kind} {text : Text} (h : Lexed kind text)
    (hblank : kind ≠ .blank) (case : KeywordCase) : Solid (written case kind text) := by
  unfold written
  split
  · exact solid_apply_of_ofWord? (h.keyword _ rfl) case
  · exact solid_trimEnd_of_dashes (h.lineComment rfl)
  · exact h.solid hblank (by assumption)

end SqlInlay.Sql
