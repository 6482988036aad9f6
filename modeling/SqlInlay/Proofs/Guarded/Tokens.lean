import SqlInlay.Proofs.Guarded.Access
import SqlInlay.Proofs.Sql.Settling

/-!
# Tokens, by offsets and indices

Reading the tokens of a query with nothing but what is left of it: where that starts in the query is
the difference of two lengths, and the query is cut there for the character in front.  Keywords that
lack their company are then looked up by their indices and changed in place.

**Lexemes.**  A round takes at least one character from what is left, so the loop gets on
(`lexemes_eq`).  The difference is that of a text and its end, and the cut falls where the end
starts.

**Indices** of tokens that carry meaning are `codeIndices`; they are in range because they come from
the tokens that they point into, and changing a token takes none away.  All lemmas are about the
tokens behind some front, whose length is where their indices start (`significant_eq`,
`demoted_eq`), so that the induction over the tokens can move the front on.

**In place or not.**  `settleKeywords` goes through the tokens once and looks at each as it was
lexed, while `refineKeywords` first collects the indices to change and then changes them.  Both come
to the same, because collecting is over before anything is changed (`demote_eq`).
-/

namespace SqlInlay.Guarded

open SqlInlay.Text SqlInlay.Host SqlInlay.Sql

/-! ## Lexemes

Where a lexeme cannot be read the loop is left with a failure, which is not a trap.
-/

/-- One round over a query: what is left of it, and the tokens in front. -/
def tokenRound (query : Text) :
    Text × List Token → Guarded (Step (Text × List Token) (Except Failure (List Token)))
  | (rest, done) => do
    match rest with
    | [] => return .leave (.ok done)
    | x :: t =>
      let offset ← subtract (bytes query) (bytes rest)
      let before := (← sliceTo query offset).getLast?
      match lexeme before x t with
      | .error cause => return .leave (.error (.lexical offset cause))
      | .ok (kind, n) => return .again (t.drop n, done ++ [⟨kind, x :: t.take n, offset⟩])

/-- The lexemes of a query. -/
def lexemes (query : Text) : Guarded (Except Failure (List Token)) :=
  loop (bytes query) (fun s => bytes query - bytes s.1) (tokenRound query) (query, [])

/-- One step through a query. -/
lemma lexemesFrom_cons (before : Option Char) (offset : Nat) (x : Char) (t : Text) :
    lexemesFrom before offset (x :: t) =
      match lexeme before x t with
      | .error cause => .error (.lexical offset cause)
      | .ok (kind, n) =>
        (lexemesFrom (x :: t.take n).getLast? (offset + bytes (x :: t.take n)) (t.drop n)).map
          (⟨kind, x :: t.take n, offset⟩ :: ·) := by
  rw [lexemesFrom]
  cases lexeme before x t with
  | error cause => rfl
  | ok read =>
    obtain ⟨kind, n⟩ := read
    simp only
    split <;> rename_i h <;> rw [h] <;> rfl

/-- The last character passed is the last of what was passed last. -/
lemma before_advance {c : Cursor} {x : Char} {t : Text} (hrest : c.rest = x :: t) (n : Nat) :
    (c.advance (n + 1)).before = (x :: t.take n).getLast? := by
  rw [Cursor.before, Cursor.advance, hrest, List.take_succ_cons, List.reverse_cons,
    List.append_assoc, List.head?_append, List.head?_reverse]
  rcases List.eq_nil_or_concat (t.take n) with hnil | ⟨init, last, hlast⟩
  · simp [hnil]
  · simp [hlast, List.getLast?_cons]

lemma lexemes_eq (query : Text) : lexemes query = .ok (lexemesFrom none 0 query) := by
  have hvalue : lexemesFrom none 0 query = (lexemesFrom none 0 query).map ([] ++ ·) := by
    cases lexemesFrom none 0 query <;> rfl
  rw [hvalue]
  refine loop_eq_ok (fun g : Cursor × List Token => (g.1.rest, g.2))
    (fun g => (lexemesFrom g.1.before g.1.offset g.1.rest).map (g.2 ++ ·))
    (fun g => g.1.text = query) ?_ (.start query, []) (Cursor.text_start query)
  rintro ⟨c, done⟩ rfl
  simp only [tokenRound]
  have hsum := offset_add_bytes_rest c
  rcases hrest : c.rest with - | ⟨x, t⟩
  · left
    simp [lexemesFrom, Except.map]
  have hne : c.rest ≠ [] := by simp [hrest]
  have hoffset : subtract (bytes c.text) (bytes (x :: t)) = .ok c.offset := by
    rw [← hrest, subtract_of_le (by omega)]
    congr 1
    omega
  simp only [hoffset, ok_bind, sliceTo_offset, before_eq_getLast?, lexemesFrom_cons]
  cases lexeme c.before x t with
  | error cause => exact .inl rfl
  | ok read =>
    obtain ⟨kind, n⟩ := read
    have hlt := offset_lt_advance (n := n + 1) (by omega) hne
    have hsum' := offset_add_bytes_rest (c.advance (n + 1))
    have hdrop : (c.advance (n + 1)).rest = t.drop n := by rw [rest_advance, hrest]; rfl
    have hnext : (c.advance (n + 1)).offset = c.offset + bytes (x :: t.take n) := by
      rw [Cursor.offset_advance, hrest, List.take_succ_cons]
    rw [Cursor.text_advance, hdrop] at hsum'
    rw [hrest] at hsum
    refine .inr ⟨(c.advance (n + 1), done ++ [⟨kind, x :: t.take n, c.offset⟩]),
      Cursor.text_advance c _, ?_, by rw [hdrop]; rfl, by simp only [hdrop]; omega,
      by simp only [hdrop]; omega⟩
    simp only [before_advance hrest, hdrop, hnext]
    cases lexemesFrom (x :: t.take n).getLast? (c.offset + bytes (x :: t.take n)) (t.drop n) with
    | error failure => rfl
    | ok tokens => simp [Except.map]

/-! ## Keywords in company

The neighbours of a token are its neighbours among the indices, so blanks and comments do not count.
-/

/-- The indices of tokens that carry meaning, among those given. -/
def significant (tokens : List Token) : List Nat → Guarded (List Nat)
  | [] => return []
  | i :: is => do
    let token ← elementAt tokens i
    let rest ← significant tokens is
    return if token.isTrivia then rest else i :: rest

/-- The token at an index, if there is one. -/
def tokenAt (tokens : List Token) : Option Nat → Guarded (Option Token)
  | none => return none
  | some i => return some (← elementAt tokens i)

/-- A keyword that lacks its company. -/
def lacksCompany (before : Option Token) (t : Token) (after : Option Token) : Bool :=
  match t.kind with
  | .keyword word => !isKeptKeyword before word after
  | _ => false

lemma lacksCompany_of_isTrivia {t : Token} (h : t.isTrivia) (before after : Option Token) :
    lacksCompany before t after = false := by
  unfold lacksCompany
  cases hkind : t.kind with
  | keyword word => simp [Token.isTrivia, Token.isComment, hkind] at h
  | _ => rfl

/-- The indices of keywords that lack their company, where `before` is the index in front. -/
def demoted (tokens : List Token) (before : Option Nat) : List Nat → Guarded (List Nat)
  | [] => return []
  | i :: is => do
    let token ← elementAt tokens i
    let lacking := lacksCompany (← tokenAt tokens before) token (← tokenAt tokens is.head?)
    let rest ← demoted tokens (some i) is
    return if lacking then i :: rest else rest

/-- The tokens at some indices turned into identifiers. -/
def demote (tokens : List Token) : List Nat → Guarded (List Token)
  | [] => return tokens
  | i :: is => do
    let token ← elementAt tokens i
    demote (tokens.set i { token with kind := .identifier }) is

/-- Every keyword that lacks its company turned into an identifier. -/
def refineKeywords (tokens : List Token) : Guarded (List Token) := do
  let indices ← significant tokens (List.range tokens.length)
  demote tokens (← demoted tokens none indices)

/-- The tokens of a query. -/
def tokenize (query : Text) : Guarded (Except Failure (List Token)) := do
  match ← lexemes query with
  | .error failure => return .error failure
  | .ok tokens => return .ok (← refineKeywords tokens)

/-- The indices of tokens that carry meaning, the first token being at index `k`. -/
def codeIndices (k : Nat) : List Token → List Nat
  | [] => []
  | t :: ts => if t.isTrivia then codeIndices (k + 1) ts else k :: codeIndices (k + 1) ts

/-- The indices of keywords that lack their company, the first token being at index `k`. -/
def lackingIndices (before : Option Token) (k : Nat) : List Token → List Nat
  | [] => []
  | t :: ts =>
    if t.isTrivia then lackingIndices before (k + 1) ts
    else if lacksCompany before t (ts.find? (!·.isTrivia)) then
      k :: lackingIndices (some t) (k + 1) ts
    else lackingIndices (some t) (k + 1) ts

section Company

variable (pre ts : List Token)

lemma elementAt_append (t : Token) : elementAt (pre ++ t :: ts) pre.length = .ok t := by
  rw [elementAt_of_lt (by simp)]
  simp

lemma significant_eq :
    significant (pre ++ ts) (List.range' pre.length ts.length) =
      .ok (codeIndices pre.length ts) := by
  induction ts generalizing pre with
  | nil => rfl
  | cons t ts ih =>
    have hrest := ih (pre ++ [t])
    rw [List.append_assoc, List.singleton_append, List.length_append] at hrest
    rw [List.length_cons, List.range'_succ, significant, elementAt_append, codeIndices]
    simp only [ok_bind, List.length_singleton] at hrest ⊢
    rw [hrest]
    rfl

/-- The next index is that of the next token that carries meaning. -/
lemma tokenAt_codeIndices :
    tokenAt (pre ++ ts) (codeIndices pre.length ts).head? = .ok (ts.find? (!·.isTrivia)) := by
  induction ts generalizing pre with
  | nil => rfl
  | cons t ts ih =>
    rw [codeIndices, List.find?_cons]
    by_cases htrivia : t.isTrivia = true
    · have hrest := ih (pre ++ [t])
      rw [List.append_assoc, List.singleton_append, List.length_append] at hrest
      rw [if_pos htrivia, htrivia]
      exact hrest
    · rw [if_neg htrivia, List.head?_cons, tokenAt, elementAt_append, Bool.eq_false_iff.2 htrivia]
      rfl

/-- Neighbours are looked up among the tokens as they were lexed. -/
lemma demoted_eq {before : Option Nat} {token : Option Token}
    (hbefore : tokenAt (pre ++ ts) before = .ok token) :
    demoted (pre ++ ts) before (codeIndices pre.length ts) =
      .ok (lackingIndices token pre.length ts) := by
  induction ts generalizing pre before token with
  | nil => rfl
  | cons t ts ih =>
    have hrest := @ih (pre ++ [t])
    have hnext := tokenAt_codeIndices (pre ++ [t]) ts
    rw [List.append_assoc, List.singleton_append, List.length_append,
      List.length_singleton] at hrest hnext
    rw [codeIndices, lackingIndices]
    by_cases htrivia : t.isTrivia = true
    · rw [if_pos htrivia, if_pos htrivia]
      exact hrest hbefore
    · have hself : tokenAt (pre ++ t :: ts) (some pre.length) = .ok (some t) := by
        rw [tokenAt, elementAt_append]
        rfl
      rw [if_neg htrivia, if_neg htrivia, demoted, elementAt_append, hbefore, hnext, hrest hself]
      simp only [ok_bind, pure_eq_ok]

/-- Keywords that lack their company are those that are settled as identifiers.  `lacksCompany` has
no say about any other token. -/
lemma settle_eq (before : Option Token) (t : Token) (after : Option Token) :
    settle before t after =
      if lacksCompany before t after then { t with kind := .identifier } else t := by
  unfold settle lacksCompany
  cases t.kind with
  | keyword word => cases hkept : isKeptKeyword before word after <;> simp [hkept]
  | _ => rfl

/-- Changing tokens by their indices comes to settling them one behind the other. -/
lemma demote_eq (before : Option Token) :
    demote (pre ++ ts) (lackingIndices before pre.length ts) =
      .ok (pre ++ settleKeywords before ts) := by
  induction ts generalizing pre before with
  | nil => simp [demote, lackingIndices, settleKeywords]
  | cons t ts ih =>
    have hrest : ∀ (u : Token) (before : Option Token),
        demote (pre ++ u :: ts) (lackingIndices before (pre.length + 1) ts) =
          .ok (pre ++ u :: settleKeywords before ts) := fun u before => by
      have := ih (pre ++ [u]) before
      rwa [List.append_assoc, List.singleton_append, List.length_append, List.append_assoc] at this
    rw [lackingIndices, settleKeywords, settle_eq]
    by_cases htrivia : t.isTrivia = true
    · have hkept : lacksCompany before t (ts.find? (!·.isTrivia)) = false :=
        lacksCompany_of_isTrivia htrivia before _
      simp only [htrivia, if_true, hkept, Bool.false_eq_true, if_false, hrest]
    · by_cases hlacks : lacksCompany before t (ts.find? (!·.isTrivia)) = true
      · -- changed in place, the token is one more of those in front
        simp only [htrivia, hlacks, if_true, Bool.false_eq_true, if_false, demote, elementAt_append,
          ok_bind]
        rw [List.set_append_right _ _ (Nat.le_refl _), Nat.sub_self, List.set_cons_zero]
        exact hrest _ _
      · simp only [htrivia, hlacks, if_false, Bool.false_eq_true, hrest]

end Company

lemma refineKeywords_eq (tokens : List Token) :
    refineKeywords tokens = .ok (settleKeywords none tokens) := by
  have hindices := significant_eq [] tokens
  have hdemoted := @demoted_eq [] tokens none none rfl
  have hdemote := demote_eq [] tokens none
  rw [List.nil_append, List.length_nil] at hindices hdemoted hdemote
  rw [refineKeywords, List.range_eq_range', hindices, ok_bind, hdemoted, ok_bind, hdemote,
    List.nil_append]

lemma tokenize_eq (query : Text) : tokenize query = .ok (Sql.tokenize query) := by
  simp only [tokenize, lexemes_eq, ok_bind, Sql.tokenize]
  cases lexemesFrom none 0 query with
  | error failure => rfl
  | ok tokens =>
    simp only [refineKeywords_eq, ok_bind]
    rfl

end SqlInlay.Guarded
