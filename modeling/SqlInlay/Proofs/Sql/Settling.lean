import Mathlib.Data.Option.Basic
import SqlInlay.Proofs.Sql.KeywordCase

/-!
# Settling keywords again

The lexer reads a word such as `order` as a keyword wherever no dot touches it, and then settles it:
without company, as `by` behind `order` is, it is a name.  When the layout of a query is read, some
of these names have come to touch a dot and are read as names at once, and the others have to be
settled again.  Were the outcome another one, a layout would be a different query.

**Company is mutual.**  Both ways come to the same because a keyword that keeps another one is kept
by it in turn, so a keyword that became a name kept nothing (`isKeptKeyword_eq`).  `Token.KindOr`
says how a neighbour may have changed in the meantime: it has its kind, or is a name in the place of
a keyword that was demoted.

**All tokens.**  `Rereads` relates the tokens of a query to those of its layout, as they are lexed,
and `kind_settleKeywords` says that both are settled to the same kinds.  It is about tokens with a
meaning only; blanks and comments play no part in settling (`filter_settleKeywords`), so both token
lists may be freed of them first.
-/

namespace SqlInlay.Sql

/-! ## Lists in step

Two facts about lists that are related place by place.
-/

/-- Related lists are related to what the second one is related to. -/
lemma forall₂_trans {α β γ : Type} {R : α → β → Prop} {S : β → γ → Prop} {T : α → γ → Prop}
    (hT : ∀ a b c, R a b → S b c → T a c) {l : List α} {m : List β} {n : List γ}
    (h : List.Forall₂ R l m) (k : List.Forall₂ S m n) : List.Forall₂ T l n := by
  induction h generalizing n with
  | nil =>
    cases k
    exact .nil
  | cons hab _ ih =>
    obtain ⟨c, n, hbc, hrest, rfl⟩ := List.forall₂_cons_left_iff.1 k
    exact .cons (hT _ _ _ hab hbc) (ih hrest)

/-- Lists related in two ways are related in both. -/
lemma forall₂_and {α β : Type} {R S : α → β → Prop} {l : List α} {m : List β}
    (h : List.Forall₂ R l m) (k : List.Forall₂ S l m) :
    List.Forall₂ (fun a b => R a b ∧ S a b) l m := by
  rw [List.forall₂_iff_zip] at h k ⊢
  exact ⟨h.1, fun hab => ⟨h.2 hab, k.2 hab⟩⟩

/-! ## Company

Company is asked for by the words that would do, in front of a keyword or behind it.  The proof goes
through the keywords that need company: each word that would keep one of them is kept by it, or
needs no company at all.
-/

/-- The second token is of the kind of the first one, or an identifier in the place of a keyword
that is demoted. -/
def Token.KindOr (demoted : Keyword → Prop) (t u : Token) : Prop :=
  u.kind = t.kind ∨ ∃ word, t.kind = .keyword word ∧ u.kind = .identifier ∧ demoted word

section Company

variable {demoted : Keyword → Prop} {a b : Option Token} {words : List Keyword}

/-- A neighbour that is not demoted is company or not as it was. -/
lemma any_spellsAny_eq (h : Option.Rel (Token.KindOr demoted) a b)
    (hwords : ∀ word ∈ words, ¬ demoted word) :
    b.any (·.spellsAny words) = a.any (·.spellsAny words) := by
  cases h with
  | none => rfl
  | @some t u h =>
    simp only [Option.any_some, Token.spellsAny]
    rcases h with hkind | ⟨word, ht, hu, hdemoted⟩
    · have hspells : u.spells = t.spells := by
        funext w
        rw [Token.spells, hkind, Token.spells]
      rw [hspells]
    · have hnone : words.any t.spells = false := by
        rw [List.any_eq_false]
        intro w hw hspells
        rw [Token.spells, ht, beq_iff_eq, Kind.keyword.injEq] at hspells
        exact hwords w hw (hspells ▸ hdemoted)
      have hnone' : words.any u.spells = false := by simp [Token.spells, hu]
      rw [hnone, hnone']

lemma any_openParen_eq (h : Option.Rel (Token.KindOr demoted) a b) :
    b.any (·.kind == .openParen) = a.any (·.kind == .openParen) := by
  cases h with
  | none => rfl
  | some h =>
    rcases h with hkind | ⟨word, ht, hu, -⟩
    · simp [hkind]
    · simp [ht, hu]

/-- **Company is mutual.**  Whether a keyword is kept does not change when neighbours are demoted
that lack company themselves: a keyword that would keep its neighbour is kept by it. -/
lemma isKeptKeyword_eq {before before' after after' : Option Token} {t : Token} {word : Keyword}
    (ht : t.kind = .keyword word)
    (hbefore : Option.Rel (Token.KindOr fun w => ∃ b, isKeptKeyword b w (some t) = false)
      before before')
    (hafter : Option.Rel (Token.KindOr fun w => ∃ a, isKeptKeyword (some t) w a = false)
      after after') :
    isKeptKeyword before' word after' = isKeptKeyword before word after := by
  have hfollows : ∀ words : List Keyword,
      (∀ w ∈ words, ∀ b, isKeptKeyword b w (some t) = true) →
      before'.any (·.spellsAny words) = before.any (·.spellsAny words) := fun words hwords =>
    any_spellsAny_eq hbefore fun w hw hdemoted => by
      obtain ⟨b, hb⟩ := hdemoted
      rw [hwords w hw b] at hb
      cases hb
  have hprecedes : ∀ words : List Keyword,
      (∀ w ∈ words, ∀ a, isKeptKeyword (some t) w a = true) →
      after'.any (·.spellsAny words) = after.any (·.spellsAny words) := fun words hwords =>
    any_spellsAny_eq hafter fun w hw hdemoted => by
      obtain ⟨a, ha⟩ := hdemoted
      rw [hwords w hw a] at ha
      cases ha
  cases word with
  | ORDER | GROUP | PARTITION => exact hprecedes _ (by simp [isKeptKeyword])
  | NULLS | MEMBER =>
    refine hprecedes _ ?_
    simp [isKeptKeyword, Token.spellsAny, Token.spells, ht]
  | FIRST | LAST | OF =>
    refine hfollows _ ?_
    simp [isKeptKeyword, Token.spellsAny, Token.spells, ht]
  | EMPTY => exact hfollows _ (by simp [isKeptKeyword])
  | OVER => exact any_openParen_eq hafter
  | _ => rfl

end Company

/-! ## Settling what is settled

The induction is over the tokens, with the one in front in view: it may be a keyword in one list and
a name in the other, if it kept nothing.
-/

section Settling

variable {before before' : Option Token} {ts us : List Token}

/-- Some tokens read as others do, which stand behind `before`, but that keywords without company
may be names already. -/
inductive Rereads : Option Token → List Token → List Token → Prop
  | nil (before : Option Token) : Rereads before [] []
  | cons {before : Option Token} {t u : Token} {ts us : List Token}
      (h : t.KindOr (fun word => isKeptKeyword before word ts.head? = false) u)
      (hrest : Rereads (some t) ts us) : Rereads before (t :: ts) (u :: us)

lemma find?_of_code (h : ∀ t ∈ ts, t.isTrivia = false) :
    ts.find? (!·.isTrivia) = ts.head? := by
  cases ts with
  | nil => rfl
  | cons t ts => simp [h t (List.mem_cons_self ..)]

lemma kind_settle_of_keyword {t : Token} {word : Keyword} (h : t.kind = .keyword word)
    (before after : Option Token) : (settle before t after).kind =
      if isKeptKeyword before word after then .keyword word else .identifier := by
  simp only [settle, h]
  split
  · exact h
  · rfl

/-- Settling leaves all but keywords alone. -/
lemma settle_of_not_isKeyword {t : Token} (h : t.isKeyword = false) (before after : Option Token) :
    settle before t after = t := by
  unfold settle
  split
  · rename_i word hword
    simp [Token.isKeyword, hword] at h
  · rfl

lemma not_isKeyword_of_isTrivia {t : Token} (h : t.isTrivia = true) : t.isKeyword = false := by
  by_contra hkeyword
  obtain ⟨word, hword⟩ := isKeyword_iff.1 (by simpa using hkeyword)
  simp [Token.isTrivia, Token.isComment, hword] at h

lemma isTrivia_settle (before : Option Token) (t : Token) (after : Option Token) :
    (settle before t after).isTrivia = t.isTrivia := by
  by_cases hkeyword : t.isKeyword = true
  · obtain ⟨word, hword⟩ := isKeyword_iff.1 hkeyword
    have ht : t.isTrivia = false := by simp [Token.isTrivia, Token.isComment, hword]
    rw [ht, Token.isTrivia, Token.isComment, kind_settle_of_keyword hword]
    split <;> rfl
  · rw [settle_of_not_isKeyword (by simpa using hkeyword)]

lemma isComment_of_code {t : Token} (h : t.isTrivia = false) : t.isComment = false :=
  (Bool.or_eq_false_iff.1 h).2

/-- Settling looks at code only. -/
lemma filter_settleKeywords (before : Option Token) (ts : List Token) :
    (settleKeywords before ts).filter (!·.isTrivia) =
      settleKeywords before (ts.filter (!·.isTrivia)) := by
  induction ts generalizing before with
  | nil => rfl
  | cons t ts ih =>
    rw [settleKeywords, List.filter_cons, isTrivia_settle, List.filter_cons]
    cases ht : t.isTrivia with
    | true => simpa using ih before
    | false =>
      simp only [Bool.not_false, if_true, settleKeywords, ht, Bool.false_eq_true, if_false, ih]
      congr 2
      simp [List.find?_filter]

/-- Settling leaves comments alone. -/
lemma filter_isComment_settleKeywords (before : Option Token) (ts : List Token) :
    (settleKeywords before ts).filter Token.isComment = ts.filter Token.isComment := by
  induction ts generalizing before with
  | nil => rfl
  | cons t ts ih =>
    rw [settleKeywords, List.filter_cons, List.filter_cons, ih]
    cases ht : t.isTrivia with
    | true => rw [settle_of_not_isKeyword (not_isKeyword_of_isTrivia ht)]
    | false =>
      rw [isComment_of_code ht, isComment_of_code ((isTrivia_settle before t _).trans ht)]
      rfl

/-- **Tokens that were settled are settled as they were.**  The tokens in front may differ in the
same way as the tokens themselves. -/
lemma kind_settleKeywords (h : Rereads before ts us) (hts : ∀ t ∈ ts, t.isTrivia = false)
    (hus : ∀ u ∈ us, u.isTrivia = false)
    (hbefore : ∀ t ∈ ts.head?,
      Option.Rel (Token.KindOr fun w => ∃ b, isKeptKeyword b w (some t) = false) before before') :
    List.Forall₂ (fun t u => u.kind = t.kind) (settleKeywords before ts)
      (settleKeywords before' us) := by
  induction h generalizing before' with
  | nil => exact .nil
  | @cons before t u ts us htu hrest ih =>
    obtain ⟨ht, hts⟩ := List.forall_mem_cons.1 hts
    obtain ⟨hu, hus⟩ := List.forall_mem_cons.1 hus
    rw [settleKeywords, settleKeywords, ht, hu, find?_of_code hts, find?_of_code hus]
    refine .cons ?_ (ih hts hus fun t' ht' => .some ?_)
    · have hafter : Option.Rel (Token.KindOr fun w => ∃ a, isKeptKeyword (some t) w a = false)
          ts.head? us.head? := by
        cases hrest with
        | nil => exact .none
        | cons h _ =>
          refine .some (h.imp_right ?_)
          rintro ⟨word, hword, hname, hlone⟩
          exact ⟨word, hword, hname, _, hlone⟩
      rcases htu with hkind | ⟨word, hword, hname, hlone⟩
      · by_cases hkeyword : t.isKeyword = true
        · obtain ⟨word, hword⟩ := isKeyword_iff.1 hkeyword
          rw [kind_settle_of_keyword hword, kind_settle_of_keyword (hkind.trans hword),
            isKeptKeyword_eq hword (hbefore t rfl) hafter]
        · have hkeyword' : u.isKeyword = false := by simpa [Token.isKeyword, hkind] using hkeyword
          rw [settle_of_not_isKeyword hkeyword', settle_of_not_isKeyword (by simpa using hkeyword)]
          exact hkind
      · rw [kind_settle_of_keyword hword, hlone, if_neg (by simp),
          settle_of_not_isKeyword (by simp [Token.isKeyword, hname]), hname]
    · refine htu.imp_right ?_
      rintro ⟨word, hword, hname, hlone⟩
      rw [Option.mem_def.1 ht'] at hlone
      exact ⟨word, hword, hname, before, hlone⟩

end Settling

/-! ## Words

Tokens related in this way are words related in this way, if blanks are where blanks are.
-/

/-- Tokens that are blank where others are, and blank in the same way, have words in the same
places. -/
lemma forall₂_wordsOf {R : Token → Token → Prop} {ts us : List Token} (h : List.Forall₂ R ts us)
    (hblank : ∀ t u, R t u → (u.kind = .blank ↔ t.kind = .blank))
    (htext : ∀ t u, R t u → t.kind = .blank → u.text = t.text) (fresh touching : Bool) :
    List.Forall₂ (fun w v => R w.token v.token ∧ v.fresh = w.fresh ∧ v.touching = w.touching)
      (wordsOf fresh touching ts) (wordsOf fresh touching us) := by
  induction h generalizing fresh touching with
  | nil => exact .nil
  | @cons t u ts us htu _ ih =>
    by_cases ht : t.kind = .blank
    · rw [wordsOf, if_pos ht, wordsOf, if_pos ((hblank t u htu).2 ht), htext t u htu ht]
      exact ih _ _
    · rw [wordsOf, if_neg ht, wordsOf, if_neg (mt (hblank t u htu).1 ht)]
      exact .cons ⟨htu, rfl, rfl⟩ (ih _ _)

end SqlInlay.Sql
