import Mathlib.Data.Nat.Find
import Mathlib.Order.Bounds.Basic
import SqlInlay.Proofs.Sql.Coverage

/-!
# Where delimited tokens end

Strings, quoted identifiers and block comments are read up to a mark that closes them, whatever
stands in between.  This file says where that is without reading: the end is the least place at
which the text holds what closes the token (`Delimiter.EndsAt`).  Parentheses, keywords and comment
marks inside do not come into it.

**Quotes.**  A quote that is doubled stands for itself, so what closes a string is a run of quotes
of odd length, all of it: the pairs in front stand for themselves, and the last quote closes.  The
lexer reads pair by pair and knows of no runs; taking a pair off the front of a text changes the
length of a run by two or takes a whole run away, so its parity is kept (`oddRunEnds_cons_cons`).
`throughDoubledQuote?_eq_some_iff` is what follows by induction on the text.

**Marks.**  Names in backticks and comments end where their mark first occurs
(`through?_eq_some_iff`).

**Runs of the lexer.**  `Lexes` says that the lexer reads some tokens and comes to some rest.

* `Lexes.comparable` — two runs over one text are the same as far as both go.
* `Lexes.extent_le_or_le` — so wherever a delimited token starts, the lexer goes on behind its end
  and no token starts inside.
* `Lexes.extent_le_of_stuck` — and if the token has no end, no run goes further, and that is where
  tokenizing fails.
-/

namespace SqlInlay.Sql

open SqlInlay.Text

/-! ## Ends -/

/-- A run of a character that cannot be made longer, behind `front` and in front of `rest`.  Quotes
that are doubled come in such runs. -/
structure MaximalRun (c : Char) (t front : Text) (length : Nat) (rest : Text) : Prop where
  split : t = front ++ (List.replicate length c ++ rest)
  pos : 0 < length
  left : c ∉ front.getLast?
  right : c ∉ rest.head?

/-- A maximal run of odd length ends behind `n` characters.  Its quotes are doubled but for one,
which closes. -/
def OddRunEnds (c : Char) (t : Text) (n : Nat) : Prop :=
  ∃ front length rest, MaximalRun c t front length rest ∧ length % 2 = 1 ∧
    n = front.length + length

/-- A mark stands behind `n` characters. -/
def Occurs (mark t : Text) (n : Nat) : Prop :=
  ∃ front rest, t = front ++ (mark ++ rest) ∧ n = front.length

/-- A mark ends behind `n` characters. -/
def MarkEnds (mark t : Text) (n : Nat) : Prop := ∃ m, Occurs mark t m ∧ n = m + mark.length

/-- What a delimited token opens with. -/
inductive Delimiter where
  | apostrophe
  | quotationMark
  | backtick
  | blockComment
deriving DecidableEq, Repr

namespace Delimiter

/-- The mark that opens the token. -/
def opening : Delimiter → Text
  | apostrophe => "'"
  | quotationMark => "\""
  | backtick => "\x60"
  | blockComment => "/*"

/-- The kind of the token. -/
def kind : Delimiter → Kind
  | apostrophe => .string
  | quotationMark | backtick => .quotedIdentifier
  | blockComment => .blockComment

/-- The failure to close the token. -/
def cause : Delimiter → Unterminated
  | apostrophe => .stringLiteral
  | quotationMark | backtick => .quotedIdentifier
  | blockComment => .blockComment

/-- In the text behind the opening mark, something that closes the token ends behind `n`
characters. -/
def EndsAt : Delimiter → Text → Nat → Prop
  | apostrophe => OddRunEnds '\''
  | quotationMark => OddRunEnds '"'
  | backtick => MarkEnds "\x60"
  | blockComment => MarkEnds "*/"

/-- The token that starts at an offset and ends behind `n` characters of the text `t` behind its
opening mark. -/
def token (d : Delimiter) (t : Text) (n offset : Nat) : Token :=
  ⟨d.kind, d.opening ++ t.take n, offset⟩

end Delimiter

/-! ## Runs of quotes

The end of a run is a matter of the characters on both sides of it, its parity one of the quotes in
between.  The lemmas change the front of the text by one character or by a pair, as the lexer reads,
and say how the ends of odd runs move.
-/

section Runs

variable {q c : Char} {t : Text} {n : Nat}

lemma OddRunEnds.pos (h : OddRunEnds q t n) : 0 < n := by
  obtain ⟨front, length, rest, hrun, -, rfl⟩ := h
  exact Nat.add_pos_right _ hrun.pos

/-- Another character in front of a text moves the ends of its runs by one. -/
lemma oddRunEnds_cons_of_ne (hc : c ≠ q) :
    OddRunEnds q (c :: t) n ↔ ∃ m, OddRunEnds q t m ∧ n = m + 1 := by
  constructor
  · rintro ⟨front, length, rest, ⟨hsplit, hpos, hleft, hright⟩, hodd, rfl⟩
    rcases front with _ | ⟨d, front⟩
    · obtain ⟨length, rfl⟩ := Nat.exists_eq_succ_of_ne_zero hpos.ne'
      exact absurd (List.cons.inj hsplit).1 hc
    · obtain ⟨rfl, rfl⟩ := List.cons.inj hsplit
      refine ⟨front.length + length, ⟨front, length, rest, ⟨rfl, hpos, ?_, hright⟩, hodd, rfl⟩, ?_⟩
      · rcases front with _ | ⟨e, front⟩
        · simp
        · rwa [List.getLast?_cons_cons] at hleft
      · simp only [List.length_cons]
        omega
  · rintro ⟨m, ⟨front, length, rest, ⟨rfl, hpos, hleft, hright⟩, hodd, rfl⟩, rfl⟩
    refine ⟨c :: front, length, rest, ⟨rfl, hpos, ?_, hright⟩, hodd, ?_⟩
    · rcases front with _ | ⟨e, front⟩
      · simpa using hc
      · rwa [List.getLast?_cons_cons]
    · simp only [List.length_cons]
      omega

/-- A pair of quotes in front of a text moves the ends of its odd runs by two: it makes a run at the
front longer by two, or is an even run of its own. -/
lemma oddRunEnds_cons_cons :
    OddRunEnds q (q :: q :: t) n ↔ ∃ m, OddRunEnds q t m ∧ n = m + 2 := by
  constructor
  · rintro ⟨front, length, rest, ⟨hsplit, hpos, hleft, hright⟩, hodd, rfl⟩
    rcases front with _ | ⟨d, _ | ⟨e, front⟩⟩
    · -- the run takes both quotes in, and one quote alone could be made longer
      obtain ⟨length, rfl⟩ := Nat.exists_eq_succ_of_ne_zero hpos.ne'
      rcases length with _ | ⟨length⟩
      · obtain rfl : q :: t = rest := (List.cons.inj hsplit).2
        exact absurd rfl hright
      · have ht : t = List.replicate length q ++ rest := (List.cons.inj (List.cons.inj hsplit).2).2
        refine ⟨length, ⟨[], length, rest, ⟨ht, by omega, by simp, hright⟩, by omega, ?_⟩, ?_⟩
        · simp
        · simp
    · obtain ⟨rfl, -⟩ := List.cons.inj hsplit
      exact absurd rfl hleft
    · obtain ⟨rfl, htail⟩ := List.cons.inj hsplit
      obtain ⟨rfl, rfl⟩ := List.cons.inj htail
      rcases front with _ | ⟨f, front⟩
      · exact absurd rfl hleft
      · rw [List.getLast?_cons_cons, List.getLast?_cons_cons] at hleft
        exact ⟨(f :: front).length + length,
          ⟨f :: front, length, rest, ⟨rfl, hpos, hleft, hright⟩, hodd, rfl⟩, by
            simp only [List.length_cons]
            omega⟩
  · rintro ⟨m, ⟨front, length, rest, ⟨rfl, hpos, hleft, hright⟩, hodd, rfl⟩, rfl⟩
    rcases front with _ | ⟨f, front⟩
    · exact ⟨[], length + 2, rest, ⟨rfl, by omega, by simp, hright⟩, by omega, by simp⟩
    · refine ⟨q :: q :: f :: front, length, rest, ⟨rfl, hpos, ?_, hright⟩, hodd, ?_⟩
      · rwa [List.getLast?_cons_cons, List.getLast?_cons_cons]
      · simp only [List.length_cons]
        omega

/-- A quote alone at the front of a text is an odd run, and none ends before it. -/
lemma isLeast_oddRunEnds_one (h : q ∉ t.head?) : IsLeast {n | OddRunEnds q (q :: t) n} 1 :=
  ⟨⟨[], 1, t, ⟨rfl, Nat.one_pos, by simp, h⟩, rfl, rfl⟩, fun _ hn => OddRunEnds.pos hn⟩

end Runs

/-! ## Scanning finds the first end -/

/-- Where ends are moved, so is the first one. -/
lemma isLeast_shift {P : Nat → Prop} {k n : Nat} :
    IsLeast {n | ∃ m, P m ∧ n = m + k} n ↔ ∃ m, IsLeast {m | P m} m ∧ m + k = n := by
  constructor
  · rintro ⟨⟨m, hm, rfl⟩, hleast⟩
    exact ⟨m, ⟨hm, fun m' hm' => Nat.le_of_add_le_add_right (hleast ⟨m', hm', rfl⟩)⟩, rfl⟩
  · rintro ⟨m, ⟨hm, hleast⟩, rfl⟩
    refine ⟨⟨m, hm, rfl⟩, ?_⟩
    rintro _ ⟨m', hm', rfl⟩
    exact Nat.add_le_add_right (hleast hm') k

/-- Reading pair by pair ends with the first run of odd length. -/
lemma throughDoubledQuote?_eq_some_iff {q : Char} {t : Text} {n : Nat} :
    throughDoubledQuote? q t = some n ↔ IsLeast {n | OddRunEnds q t n} n := by
  fun_induction throughDoubledQuote? q t generalizing n with
  | case1 =>
    simp only [reduceCtorEq, false_iff]
    rintro ⟨⟨front, length, rest, hrun, -⟩, -⟩
    have hlength := congrArg List.length hrun.split
    have hpos := hrun.pos
    simp only [List.length_nil, List.length_append, List.length_replicate] at hlength
    omega
  | case2 =>
    rw [Option.some.injEq]
    exact ⟨fun h => h ▸ isLeast_oddRunEnds_one (by simp),
      fun h => (isLeast_oddRunEnds_one (by simp)).unique h⟩
  | case3 u ih =>
    simp only [oddRunEnds_cons_cons, isLeast_shift, Option.map_eq_some_iff, ih]
  | case4 d u hd =>
    rw [Option.some.injEq]
    have hright : q ∉ (d :: u).head? := by simpa using hd
    exact ⟨fun h => h ▸ isLeast_oddRunEnds_one hright,
      fun h => (isLeast_oddRunEnds_one hright).unique h⟩
  | case5 c t hc ih =>
    simp only [oddRunEnds_cons_of_ne hc, isLeast_shift, Option.map_eq_some_iff, ih]

/-- Searching finds the first occurrence, and fails where there is none.  Behind a character at
which the mark does not start, occurrences are those in the rest, one further on. -/
lemma find?_eq_some_iff {mark t : Text} {n : Nat} :
    find? mark t = some n ↔ IsLeast {n | Occurs mark t n} n := by
  induction t generalizing n with
  | nil =>
    have hoccurs : ∀ n, Occurs mark [] n ↔ mark = [] ∧ n = 0 := by
      intro n
      constructor
      · rintro ⟨front, rest, hsplit, rfl⟩
        simp_all
      · rintro ⟨rfl, rfl⟩
        exact ⟨[], [], rfl, rfl⟩
    simp only [find?, List.isEmpty_iff, hoccurs]
    split
    · rename_i hempty
      rw [Option.some.injEq]
      exact ⟨fun h => h ▸ ⟨⟨hempty, rfl⟩, fun _ _ => Nat.zero_le _⟩, fun h => h.1.2.symm⟩
    · rename_i hne
      simp only [reduceCtorEq, false_iff]
      exact fun h => hne h.1.1
  | cons c t ih =>
    simp only [find?]
    split
    · rename_i hopens
      obtain ⟨rest, hrest⟩ := opensWith_iff.1 hopens
      have hzero : IsLeast {n | Occurs mark (c :: t) n} 0 :=
        ⟨⟨[], rest, hrest.symm, rfl⟩, fun _ _ => Nat.zero_le _⟩
      rw [Option.some.injEq]
      exact ⟨fun h => h ▸ hzero, fun h => hzero.unique h⟩
    · rename_i hopens
      have hoccurs : ∀ n, Occurs mark (c :: t) n ↔ ∃ m, Occurs mark t m ∧ n = m + 1 := by
        intro n
        constructor
        · rintro ⟨front, rest, hsplit, rfl⟩
          rcases front with _ | ⟨d, front⟩
          · exact absurd (opensWith_iff.2 ⟨rest, hsplit.symm⟩) hopens
          · exact ⟨front.length, ⟨front, rest, (List.cons.inj hsplit).2, rfl⟩, rfl⟩
        · rintro ⟨m, ⟨front, rest, rfl, rfl⟩, rfl⟩
          exact ⟨c :: front, rest, rfl, rfl⟩
      simp only [hoccurs, isLeast_shift, Option.map_eq_some_iff, ih]

/-- Reading through a mark ends with the first occurrence of the mark. -/
lemma through?_eq_some_iff {mark t : Text} {n : Nat} :
    through? mark t = some n ↔ IsLeast {n | MarkEnds mark t n} n := by
  simp only [through?, MarkEnds, isLeast_shift, Option.map_eq_some_iff, find?_eq_some_iff]

namespace Delimiter

variable (d : Delimiter)

/-- How far a delimited token reaches behind its opening mark. -/
def length? (t : Text) : Option Nat :=
  match d with
  | apostrophe => throughDoubledQuote? '\'' t
  | quotationMark => throughDoubledQuote? '"' t
  | backtick => through? "\x60" t
  | blockComment => through? "*/" t

lemma length?_eq_some_iff {t : Text} {n : Nat} :
    d.length? t = some n ↔ IsLeast {n | d.EndsAt t n} n := by
  cases d
  · exact throughDoubledQuote?_eq_some_iff
  · exact throughDoubledQuote?_eq_some_iff
  · exact through?_eq_some_iff
  · exact through?_eq_some_iff

/-- If a token has an end, it has a first one. -/
lemma exists_isLeast {t : Text} (h : ∃ n, d.EndsAt t n) : ∃ n, IsLeast {n | d.EndsAt t n} n := by
  classical
  exact ⟨Nat.find h, Nat.find_spec h, fun m hm => Nat.find_min' h hm⟩

/-- A token is read to an end if there is one. -/
lemma length?_eq_none_iff {t : Text} : d.length? t = none ↔ ¬ ∃ n, d.EndsAt t n := by
  constructor
  · intro hnone hends
    obtain ⟨n, hn⟩ := d.exists_isLeast hends
    rw [← d.length?_eq_some_iff, hnone] at hn
    cases hn
  · intro hends
    cases hlength : d.length? t with
    | none => rfl
    | some n => exact absurd ⟨n, (d.length?_eq_some_iff.1 hlength).1⟩ hends

/-- The lexeme at an opening mark is the delimited token.  None of the opening marks starts any
other lexeme, so what is in front of it and behind it does not matter. -/
lemma exists_lexeme :
    ∃ c marks, d.opening = c :: marks ∧ ∀ before t,
      lexeme before c (marks ++ t) = match d.length? t with
        | some n => .ok (d.kind, marks.length + n)
        | none => .error d.cause := by
  cases d with
  | apostrophe =>
    refine ⟨'\'', [], rfl, fun before t => ?_⟩
    simp only [lexeme, length?, List.nil_append]
    cases throughDoubledQuote? '\'' t <;> simp [delimited, kind, cause]
  | quotationMark =>
    refine ⟨'"', [], rfl, fun before t => ?_⟩
    simp only [lexeme, length?, List.nil_append]
    cases throughDoubledQuote? '"' t <;> simp [delimited, kind, cause]
  | backtick =>
    refine ⟨'\x60', [], rfl, fun before t => ?_⟩
    have hmark : "\x60".toList = ['\x60'] := rfl
    simp only [lexeme, length?, List.nil_append, hmark]
    cases through? ['\x60'] t <;> simp [delimited, kind, cause]
  | blockComment =>
    refine ⟨'/', ['*'], rfl, fun before t => ?_⟩
    have hopens : opensWith "*" ('*' :: t) = true := opensWith_iff.2 ⟨t, rfl⟩
    simp only [List.singleton_append, lexeme, hopens, length?, List.drop_succ_cons, List.drop_zero]
    cases through? "*/" t <;> simp [delimited, kind, cause, Nat.add_comm]

end Delimiter

/-! ## Runs of the lexer -/

section Lexing

variable {before last last' : Option Char} {offset : Nat} {t rest rest' : Text}
  {tokens tokens' : List Token}

/-- A run goes on where another one has ended. -/
lemma Lexes.append (h : Lexes before offset t tokens last rest)
    (h' : Lexes last (offset + bytes (tokens.flatMap Token.text)) rest tokens' last' rest') :
    Lexes before offset t (tokens ++ tokens') last' rest' := by
  induction h with
  | done => simpa using h'
  | read hlexeme _ ih =>
    refine .read hlexeme (ih ?_)
    simpa only [List.flatMap_cons, bytes_append, Nat.add_assoc] using h'

/-- Of two runs over a text, one goes on where the other has ended. -/
lemma Lexes.comparable (h : Lexes before offset t tokens last rest)
    (h' : Lexes before offset t tokens' last' rest') :
    (∃ more, tokens' = tokens ++ more ∧
      Lexes last (offset + bytes (tokens.flatMap Token.text)) rest more last' rest') ∨
    ∃ more, tokens = tokens' ++ more ∧
      Lexes last' (offset + bytes (tokens'.flatMap Token.text)) rest' more last rest := by
  induction h generalizing tokens' with
  | done => exact .inl ⟨tokens', rfl, by simpa using h'⟩
  | @read before last offset n c t rest kind tokens hlexeme htail ih =>
    cases h' with
    | done => exact .inr ⟨_, rfl, by simpa using Lexes.read hlexeme htail⟩
    | @read _ _ _ n' _ _ _ kind' tokens' hlexeme' htail' =>
      rw [hlexeme] at hlexeme'
      obtain ⟨rfl, rfl⟩ : kind = kind' ∧ n = n' := by simpa using hlexeme'
      rcases ih htail' with ⟨more, rfl, hmore⟩ | ⟨more, rfl, hmore⟩
      · refine .inl ⟨more, rfl, ?_⟩
        simpa only [List.flatMap_cons, bytes_append, Nat.add_assoc] using hmore
      · refine .inr ⟨more, rfl, ?_⟩
        simpa only [List.flatMap_cons, bytes_append, Nat.add_assoc] using hmore

/-- Where a run gets stuck, lexing fails. -/
lemma Lexes.lexemesFrom_eq_error {c : Char} {cause : Unterminated}
    (h : Lexes before offset t tokens last rest) (hrest : rest = c :: rest')
    (hstuck : lexeme last c rest' = .error cause) :
    lexemesFrom before offset t =
      .error (.lexical (offset + bytes (tokens.flatMap Token.text)) cause) := by
  induction h with
  | done =>
    subst hrest
    rw [lexemesFrom, hstuck]
    rfl
  | read hlexeme _ ih =>
    rw [lexemesFrom, hlexeme]
    simp only [ih hrest hstuck, List.flatMap_cons, bytes_append, Nat.add_assoc]

/-- A run that goes as far as another one or further is that one, and then goes on. -/
lemma Lexes.exists_more (h : Lexes before offset t tokens last rest)
    (h' : Lexes before offset t tokens' last' rest')
    (hle : bytes (tokens.flatMap Token.text) ≤ bytes (tokens'.flatMap Token.text)) :
    ∃ more, tokens' = tokens ++ more ∧
      Lexes last (offset + bytes (tokens.flatMap Token.text)) rest more last' rest' := by
  rcases h.comparable h' with hmore | ⟨more, rfl, hmore⟩
  · exact hmore
  · cases hmore with
    | done => exact ⟨[], by simp, by simpa using Lexes.done ..⟩
    | @read _ _ _ n c _ _ _ _ _ _ =>
      have hpos := c.utf8Size_pos
      simp only [List.flatMap_append, List.flatMap_cons, bytes_append, bytes_cons] at hle
      omega

/-- The bytes of some tokens, put together. -/
def extent (tokens : List Token) : Nat := bytes (tokens.flatMap Token.text)

lemma extent_append (tokens tokens' : List Token) :
    extent (tokens ++ tokens') = extent tokens + extent tokens' := by
  simp [extent]

/-- No run ends inside a token of another run. -/
lemma Lexes.extent_le_or_le {u : Token} (h : Lexes before offset t (tokens ++ [u]) last rest)
    (h' : Lexes before offset t tokens' last' rest') :
    extent tokens' ≤ extent tokens ∨ extent (tokens ++ [u]) ≤ extent tokens' := by
  rcases h.comparable h' with ⟨more, rfl, -⟩ | ⟨more, hmore, -⟩
  · rw [extent_append _ more]
    exact .inr (Nat.le_add_right _ _)
  · rcases List.eq_nil_or_concat more with rfl | ⟨more, v, rfl⟩
    · rw [hmore, List.append_nil]
      exact .inr (Nat.le_refl _)
    · rw [List.concat_eq_append, ← List.append_assoc] at hmore
      obtain ⟨rfl, -⟩ := List.append_inj' hmore rfl
      rw [extent_append]
      exact .inl (Nat.le_add_right _ _)

/-- No run goes further than one that is stuck. -/
lemma Lexes.extent_le_of_stuck {c : Char} {cause : Unterminated}
    (h : Lexes before offset t tokens last (c :: rest)) (hstuck : lexeme last c rest = .error cause)
    (h' : Lexes before offset t tokens' last' rest') : extent tokens' ≤ extent tokens := by
  rcases h.comparable h' with ⟨more, rfl, hmore⟩ | ⟨more, rfl, -⟩
  · cases hmore with
    | done => rw [List.append_nil]
    | read hlexeme _ =>
      rw [hstuck] at hlexeme
      cases hlexeme
  · rw [extent_append]
    exact Nat.le_add_right _ _

end Lexing

section Delimited

variable {query t : Text} {tokens : List Token} {last : Option Char} {n : Nat} (d : Delimiter)

/-- The lexer reads a delimited token to its first end. -/
lemma Delimiter.exists_lexes (h : Lexes none 0 query tokens last (d.opening ++ t))
    (hn : IsLeast {n | d.EndsAt t n} n) :
    ∃ last', Lexes none 0 query
      (tokens ++ [d.token t n (extent tokens)]) last' (t.drop n) := by
  obtain ⟨c, marks, hopening, hlexeme⟩ := d.exists_lexeme
  have hread := hlexeme last t
  rw [d.length?_eq_some_iff.2 hn] at hread
  rw [hopening] at h
  have hnext : Lexes last (0 + bytes (tokens.flatMap Token.text)) _ _ _ _ :=
    .read hread (.done _ _ _)
  have hall := h.append hnext
  rw [List.take_length_add_append, List.drop_length_add_append, Nat.zero_add, ← List.cons_append,
    ← hopening] at hall
  exact ⟨_, hall⟩

/-- Where a delimited token has no end, the lexer is stuck. -/
lemma Delimiter.lexeme_eq_error (ht : ¬ ∃ n, d.EndsAt t n) {before : Option Char} {c : Char}
    {u : Text} (hu : d.opening ++ t = c :: u) : lexeme before c u = .error d.cause := by
  obtain ⟨c', marks, hopening, hlexeme⟩ := d.exists_lexeme
  rw [hopening] at hu
  obtain ⟨rfl, rfl⟩ := List.cons.inj hu
  have hstuck := hlexeme before t
  rwa [d.length?_eq_none_iff.2 ht] at hstuck

lemma Delimiter.text_token_ne_nil (t : Text) (n offset : Nat) : (d.token t n offset).text ≠ [] := by
  obtain ⟨c, marks, hopening, -⟩ := d.exists_lexeme
  simp [Delimiter.token, hopening]

/-- Tokens with a delimited token behind them reach to its end. -/
lemma extent_concat_token (t : Text) (n : Nat) (read : List Token) :
    extent (read ++ [d.token t n (extent read)]) = (d.token t n (extent read)).stop := by
  simp [extent, Token.stop, Delimiter.token]

/-- What a run has read is there once the query is tokenized, unless it is a keyword. -/
lemma Lexes.mem_of_tokenize {read : List Token} {u : Token} {rest : Text}
    (h : Lexes none 0 query (read ++ [u]) last rest) (hu : u.isKeyword = false)
    (htokens : tokenize query = .ok tokens) : u ∈ tokens := by
  obtain ⟨raw, hraw, rfl⟩ := exists_of_tokenize htokens
  obtain ⟨last', hall⟩ := lexes_of_lexemesFrom hraw
  have hle : bytes ((read ++ [u]).flatMap Token.text) ≤ bytes (raw.flatMap Token.text) := by
    have hread := congrArg bytes h.flatMap_text_append
    have hwhole := congrArg bytes hall.flatMap_text_append
    rw [bytes_append] at hread hwhole
    simp only [bytes_nil, Nat.add_zero] at hwhole
    omega
  obtain ⟨more, rfl, -⟩ := h.exists_more hall hle
  obtain ⟨v, hv, hdemotes⟩ := exists_of_forall₂ (demotes_settleKeywords none (read ++ [u] ++ more))
    (show u ∈ read ++ [u] ++ more by simp)
  have hkind : v.kind = u.kind := by
    rcases hdemotes.kind with hkind | ⟨hkeyword, -⟩
    · exact hkind
    · simp [hu] at hkeyword
  have htext := hdemotes.text
  have hoffset := hdemotes.offset
  obtain ⟨kind, text, offset⟩ := v
  subst hkind htext hoffset
  exact hv

/-- Tokenizing fails as lexing does. -/
lemma tokenize_eq_error_iff {failure : Failure} :
    tokenize query = .error failure ↔ lexemesFrom none 0 query = .error failure := by
  rw [tokenize]
  cases lexemesFrom none 0 query <;> simp [Except.map]

/-- **Delimited tokens end where their grammar says.**  Wherever the lexer comes to the opening mark
of a string, a quoted identifier or a block comment, the token extends to the first place at which
something closes it, it is a token of the query if the query has tokens at all, and no token starts
inside.  Tokenizing fails there if and only if nothing closes the token. -/
theorem tokenize_delimited {read : List Token} (h : Lexes none 0 query read last (d.opening ++ t)) :
    (∀ n, IsLeast {n | d.EndsAt t n} n →
      (∃ last', Lexes none 0 query (read ++ [d.token t n (extent read)]) last' (t.drop n)) ∧
      (∀ tokens, tokenize query = .ok tokens → d.token t n (extent read) ∈ tokens) ∧
      ∀ read' last' rest, Lexes none 0 query read' last' rest →
        extent read' ≤ extent read ∨ (d.token t n (extent read)).stop ≤ extent read') ∧
    (tokenize query = .error (.lexical (extent read) d.cause) ↔ ¬ ∃ n, d.EndsAt t n) := by
  refine ⟨fun n hn => ?_, ?_, fun hends => ?_⟩
  · obtain ⟨last', hrun⟩ := d.exists_lexes h hn
    have hkeyword : (d.token t n (extent read)).isKeyword = false := by cases d <;> rfl
    have hstop := extent_concat_token d t n read
    exact ⟨⟨last', hrun⟩, fun tokens htokens => hrun.mem_of_tokenize hkeyword htokens,
      fun read' last'' rest hrun' => hstop ▸ hrun.extent_le_or_le hrun'⟩
  · -- the run that is stuck does not go further than the token starts, yet the token can be read
    intro hfails hends
    obtain ⟨tokens, last', c, rest, cause, hrun, hstuck, hfailure⟩ :=
      exists_lexes_of_error (tokenize_eq_error_iff.1 hfails)
    obtain ⟨n, hn⟩ := d.exists_isLeast hends
    obtain ⟨last'', hread⟩ := d.exists_lexes h hn
    have hle := hrun.extent_le_of_stuck hstuck hread
    have hoffset : extent read = extent tokens := by
      simpa [extent] using (Failure.lexical.inj hfailure).1
    rw [extent_concat_token] at hle
    have hpos := Text.bytes_pos (d.text_token_ne_nil t n (extent read))
    simp only [Token.stop, Delimiter.token] at hle hpos
    omega
  · rw [tokenize_eq_error_iff]
    obtain ⟨c, marks, hopening, -⟩ := d.exists_lexeme
    have hrest : d.opening ++ t = c :: (marks ++ t) := by rw [hopening, List.cons_append]
    have hfails := h.lexemesFrom_eq_error hrest (d.lexeme_eq_error hends hrest)
    rwa [Nat.zero_add] at hfails

end Delimited

/-- A string with quotes at its start and in the middle and a parenthesis in it, in front of a
comment with a quote in it. -/
theorem tokenize_delimited_doubled :
    Lexes none 0 "select '''it''s (' /* ' */"
        [⟨.keyword .SELECT, "select", 0⟩, ⟨.blank, " ", 6⟩] (some ' ')
        (Delimiter.apostrophe.opening ++ "''it''s (' /* ' */".toList) ∧
      IsLeast {n | Delimiter.apostrophe.EndsAt "''it''s (' /* ' */" n} 10 ∧
      ∃ tokens, tokenize "select '''it''s (' /* ' */" = .ok tokens ∧
        ⟨.string, "'''it''s ('", 7⟩ ∈ tokens := by
  have hword : lexeme none 's' "elect '''it''s (' /* ' */" = .ok (.keyword .SELECT, 5) := by
    decide +kernel
  have hblank : lexeme (some 't') ' ' "'''it''s (' /* ' */" = .ok (.blank, 0) := by
    decide +kernel
  have hquery : "select '''it''s (' /* ' */".toList =
      's' :: "elect '''it''s (' /* ' */".toList := by decide +kernel
  have hbehind : "elect '''it''s (' /* ' */".toList.drop 5 =
      ' ' :: "'''it''s (' /* ' */".toList := by decide +kernel
  have hselect : 's' :: "elect '''it''s (' /* ' */".toList.take 5 = "select".toList := by
    decide +kernel
  have hstring : Delimiter.apostrophe.opening ++ "''it''s (' /* ' */".toList =
      "'''it''s (' /* ' */".toList := by decide +kernel
  have hrun : Lexes none 0 "select '''it''s (' /* ' */"
      [⟨.keyword .SELECT, "select", 0⟩, ⟨.blank, " ", 6⟩] (some ' ')
      (Delimiter.apostrophe.opening ++ "''it''s (' /* ' */".toList) := by
    rw [hquery, hstring, ← hselect]
    refine .read hword ?_
    rw [hbehind, hselect]
    exact .read hblank (.done ..)
  have hends : IsLeast {n | Delimiter.apostrophe.EndsAt "''it''s (' /* ' */" n} 10 :=
    Delimiter.apostrophe.length?_eq_some_iff.1 (by decide +kernel)
  have hok : (tokenize "select '''it''s (' /* ' */").isOk = true := by decide +kernel
  refine ⟨hrun, hends, ?_⟩
  cases htokens : tokenize "select '''it''s (' /* ' */" with
  | error failure =>
    rw [htokens] at hok
    cases hok
  | ok tokens =>
    exact ⟨tokens, rfl, ((tokenize_delimited .apostrophe hrun).1 10 hends).2.1 tokens htokens⟩

end SqlInlay.Sql
