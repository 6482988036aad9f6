import SqlInlay.Proofs.Sql.Words
import SqlInlay.Proofs.Text.Bytes

/-!
# Tokens cover their query

A formatter may only move what it has in hand, so the first thing to know of the lexer is that its
tokens are the query: all of it, in order, with nothing between them.  It is as much to know what is
read when a query cannot be tokenized, for then a failure names a place in it.

**Runs of the lexer.**  `Lexes` is the run of `lexeme` over an opening of a text: it says which
tokens have been read and what is left.  A query that is tokenized is lexed to its end
(`lexes_of_lexemesFrom`); one that is refused is lexed up to the place that the failure names, and
nothing can be read there (`exists_lexes_of_error`).

**Getting stuck.**  Leniency leaves few ways to fail: only a mark that opens a string, a quoted name
or a block comment can be in the way (`exists_opener_of_lexeme_error`), so the failure points at
one.

**Covering.**  Tokens cover a text if they are its pieces, in order and without gaps, none of them
empty, each at the byte offset where it starts.  Every run covers what it has read (`Lexes.placed`,
`covers_of_placed`), so `tokenize_covers` can say of any query at all what its tokens are, or what
was read in front of a quote or comment that is never closed.

**Settling** comes last and takes nothing away: it may turn a keyword into a name, which keeps its
text and its place (`demotes_settleKeywords`).
-/

namespace SqlInlay.Sql

open SqlInlay.Text

/-! ## Runs

A run may stop anywhere between two lexemes.  The last character that was read goes along, because
what a word is depends on it.
-/

/-- Lexing a text that starts at `offset` behind the character `before` reads some tokens, and then
`rest` is left behind the character `last`. -/
inductive Lexes : Option Char → Nat → Text → List Token → Option Char → Text → Prop
  | done (before : Option Char) (offset : Nat) (t : Text) : Lexes before offset t [] before t
  | read {before last : Option Char} {offset n : Nat} {c : Char} {t rest : Text} {kind : Kind}
      {tokens : List Token} (h : lexeme before c t = .ok (kind, n))
      (htail : Lexes (c :: t.take n).getLast? (offset + bytes (c :: t.take n)) (t.drop n) tokens
        last rest) :
      Lexes before offset (c :: t) (⟨kind, c :: t.take n, offset⟩ :: tokens) last rest

variable {before last : Option Char} {offset : Nat} {t rest : Text} {tokens : List Token}

/-- What a run has read and what it has left are the text. -/
lemma Lexes.flatMap_text_append (h : Lexes before offset t tokens last rest) :
    tokens.flatMap Token.text ++ rest = t := by
  induction h with
  | done => rfl
  | @read _ _ _ n c t _ _ _ _ _ ih =>
    rw [List.flatMap_cons, List.append_assoc, ih]
    exact congrArg (c :: ·) (List.take_append_drop n t)

/-- The tokens of a run stand one behind the other. -/
lemma Lexes.placed (h : Lexes before offset t tokens last rest) : Placed offset tokens := by
  induction h with
  | done => trivial
  | read _ _ ih => exact ⟨rfl, List.cons_ne_nil _ _, ih⟩

/-- Lexing to the end is a run that leaves nothing. -/
lemma lexes_of_lexemesFrom (h : lexemesFrom before offset t = .ok tokens) :
    ∃ last, Lexes before offset t tokens last [] := by
  fun_induction lexemesFrom before offset t generalizing tokens with
  | case1 before offset =>
    obtain rfl := Except.ok.inj h
    exact ⟨before, .done before offset []⟩
  | case2 => cases h
  | case3 => simp_all
  | case4 before offset c t kind n hlexeme text raw hraw =>
    rename_i ih
    obtain rfl := Except.ok.inj h
    obtain ⟨last, hrun⟩ := ih hraw
    exact ⟨last, .read hlexeme hrun⟩

/-- **Lexing that fails** is a run up to a place where no lexeme can be read.  The offset of the
failure is that of the place, counted from where the run started. -/
lemma exists_lexes_of_error {failure : Failure}
    (h : lexemesFrom before offset t = .error failure) :
    ∃ tokens last c rest cause, Lexes before offset t tokens last (c :: rest) ∧
      lexeme last c rest = .error cause ∧
      failure = .lexical (offset + bytes (tokens.flatMap Token.text)) cause := by
  fun_induction lexemesFrom before offset t with
  | case1 => cases h
  | case2 before offset c t cause hlexeme =>
    exact ⟨[], before, c, t, cause, .done before offset _, hlexeme, (Except.error.inj h).symm⟩
  | case3 before offset c t kind n hlexeme text failure' hfailure =>
    rename_i ih
    obtain rfl := Except.error.inj h
    obtain ⟨tokens, last, d, rest, cause, hrun, hstuck, rfl⟩ := ih hfailure
    refine ⟨_, last, d, rest, cause, .read hlexeme hrun, hstuck, ?_⟩
    rw [List.flatMap_cons, bytes_append, Nat.add_assoc]
  | case4 => cases h

/-! ## Where lexing gets stuck

A lexeme fails only if it is delimited and its end is not found.  The characters that it starts with
are then those of the failure.
-/

/-- The marks that open what a failure says is never closed. -/
def openers : Unterminated → List Text
  | .blockComment => ["/*"]
  | .stringLiteral => ["'"]
  | .quotedIdentifier => ["\"", "\x60"]

lemma eq_of_delimited_error {kind : Kind} {cause cause' : Unterminated} {found : Option Nat}
    (h : delimited kind cause found = .error cause') : cause' = cause := by
  cases found with
  | none => exact (Except.error.inj h).symm
  | some n => cases h

/-- Only a mark that opens something can be in the way of a lexeme. -/
lemma exists_opener_of_lexeme_error {c : Char} {cause : Unterminated}
    (h : lexeme before c t = .error cause) : ∃ mark ∈ openers cause, mark <+: c :: t := by
  unfold lexeme at h
  split at h
  · rename_i hopens
    simp only [Bool.and_eq_true, decide_eq_true_eq] at hopens
    obtain ⟨rest, rfl⟩ := opensWith_iff.1 hopens.2
    obtain rfl := eq_of_delimited_error h
    exact ⟨"/*".toList, by simp [openers], rest, by rw [hopens.1]; rfl⟩
  · split at h
    · rename_i hc
      obtain rfl := eq_of_delimited_error h
      exact ⟨"'".toList, by simp [openers], t, by rw [hc]; rfl⟩
    · split at h
      · rename_i hc
        obtain rfl := eq_of_delimited_error h
        exact ⟨"\"".toList, by simp [openers], t, by rw [hc]; rfl⟩
      · split at h
        · rename_i hc
          obtain rfl := eq_of_delimited_error h
          exact ⟨"\x60".toList, by simp [openers], t, by rw [hc]; rfl⟩
        · cases h

/-! ## Covering

`Placed` says of tokens that each starts where the one before it stops; covering adds what they come
to when they are put together.
-/

/-- Tokens are the pieces of a text: none is empty, put together they are the text, and each stands
behind the bytes of those before it. -/
structure Covers (tokens : List Token) (t : Text) : Prop where
  ne_nil : ∀ u ∈ tokens, u.text ≠ []
  flatMap_text : tokens.flatMap Token.text = t
  offset_eq : ∀ front u back, tokens = front ++ u :: back →
    u.offset = bytes (front.flatMap Token.text)

lemma ne_nil_of_placed (h : Placed offset tokens) : ∀ u ∈ tokens, u.text ≠ [] := by
  induction tokens generalizing offset with
  | nil => simp
  | cons u us ih =>
    obtain ⟨-, htext, hus⟩ := h
    exact List.forall_mem_cons.2 ⟨htext, ih hus⟩

lemma offset_eq_of_placed {front back : List Token} {u : Token}
    (h : Placed offset (front ++ u :: back)) :
    u.offset = offset + bytes (front.flatMap Token.text) := by
  induction front generalizing offset with
  | nil => exact h.1
  | cons v front ih =>
    rw [ih h.2.2, List.flatMap_cons, bytes_append, Nat.add_assoc]

/-- Tokens that stand one behind the other cover their texts, put together. -/
lemma covers_of_placed (h : Placed 0 tokens) (htext : tokens.flatMap Token.text = t) :
    Covers tokens t where
  ne_nil := ne_nil_of_placed h
  flatMap_text := htext
  offset_eq front u back hsplit := by
    subst hsplit
    simpa using offset_eq_of_placed h

/-- A token that keeps its text and place, and its kind unless it is a keyword that turns out to be
a name. -/
structure Token.Demotes (raw t : Token) : Prop where
  text : t.text = raw.text
  offset : t.offset = raw.offset
  kind : t.kind = raw.kind ∨ raw.isKeyword = true ∧ t.kind = .identifier

lemma demotes_settle (before : Option Token) (raw : Token) (after : Option Token) :
    raw.Demotes (settle before raw after) := by
  refine ⟨text_settle .., offset_settle .., ?_⟩
  unfold settle
  split
  · rename_i word hword
    split
    · exact .inl rfl
    · exact .inr ⟨by simp [Token.isKeyword, hword], rfl⟩
  · exact .inl rfl

/-- Settling keywords changes kinds only. -/
lemma demotes_settleKeywords (before : Option Token) (raw : List Token) :
    List.Forall₂ Token.Demotes raw (settleKeywords before raw) := by
  induction raw generalizing before with
  | nil => exact .nil
  | cons u us ih => exact .cons (demotes_settle ..) (ih _)

/-- **Tokenizing covers the query.**  Where it succeeds, the tokens are the pieces of the query, and
those that the lexer read with some keywords demoted to names.  Where it fails, it fails at a
character where something opens that is never closed, and the tokens read so far cover all in front
of it. -/
theorem tokenize_covers (query : Text) :
    match tokenize query with
    | .ok tokens => Covers tokens query ∧
        ∃ raw, lexemesFrom none 0 query = .ok raw ∧ List.Forall₂ Token.Demotes raw tokens
    | .error failure => ∃ offset cause, failure = .lexical offset cause ∧
        isBoundary offset query = true ∧
        ∃ front rest tokens last, query = front ++ rest ∧ bytes front = offset ∧
          (∃ mark ∈ openers cause, mark <+: rest) ∧
          Lexes none 0 query tokens last rest ∧ Covers tokens front := by
  cases htokenize : tokenize query with
  | ok tokens =>
    obtain ⟨raw, hraw, rfl⟩ := exists_of_tokenize htokenize
    exact ⟨covers_of_placed (placed_of_tokenize htokenize) (flatMap_text_of_tokenize htokenize),
      raw, hraw, demotes_settleKeywords none raw⟩
  | error failure =>
    have hraw : lexemesFrom none 0 query = .error failure := by
      rw [tokenize] at htokenize
      cases hlex : lexemesFrom none 0 query with
      | ok raw => simp [hlex, Except.map] at htokenize
      | error failure' => simpa [hlex, Except.map] using htokenize
    obtain ⟨tokens, last, c, rest, cause, hrun, hstuck, rfl⟩ := exists_lexes_of_error hraw
    have hsplit := hrun.flatMap_text_append
    refine ⟨_, cause, rfl, ?_, tokens.flatMap Token.text, c :: rest, tokens, last, hsplit.symm,
      (Nat.zero_add _).symm, exists_opener_of_lexeme_error hstuck, hrun,
      covers_of_placed hrun.placed rfl⟩
    rw [Nat.zero_add, ← hsplit]
    exact isBoundary_bytes_append ..

end SqlInlay.Sql
