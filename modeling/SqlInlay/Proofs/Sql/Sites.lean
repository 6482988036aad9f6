import SqlInlay.Proofs.Sql.Coverage
import SqlInlay.Proofs.Sql.Relexing
import SqlInlay.Proofs.Sql.Setting

/-!
# Tokens and their sites

To read a layout again is to look at each token in two places: among the tokens that the lexer read
from the query, and in the layout, where other blanks stand around it.  A `Site` is a token in both.
It links what three other developments say of the token: what it takes for its text to be a lexeme
(`Lexeme`), where hoisting may have put it (`Hoisted`), and what may stand beside it in a layout
without a blank between (`Cell.Follows`).

**Neighbours.**  Hoisting moves commas, closing parentheses, semicolons and line comments only, so
all other tokens keep their neighbours (`Hoisted.infix_of_source`, `Hoisted.infix_of_target`).  What
the lexer knew about a token from its neighbours is therefore known in the layout too: a name that
spells a keyword still has a dot beside it, and digits that are a name still have a dot and a word
behind them.

* `Sited.dot_beside` and `Sited.dot_behind_digits` find these neighbours in the query.
* `Sited.exists_next` and `Sited.exists_previous` find them again in the layout.
* `Sited.space_dot` and `Sited.space_behind_dot` say that nothing blank has come between.

**Touching.**  Where nothing separates two tokens in a layout, `Stroke.Meets.clasps` lists the rules
that let them touch, and `Sited.touches` what that means for the character behind the first of them.
These rules do not keep all tokens what they are; `Token.SafeBefore` says which neighbours have to
be ruled out.

**The sites of a layout.**  `exists_sited` finds them for any text that is set in slots, which is
what a layout is.  From there on `Sited` is the only thing that is used of hoisting, settling and
printing.
-/

namespace SqlInlay.Sql

open SqlInlay.Text

/-! ## Neighbours under hoisting

Hoisting is a chain of exchanges of two neighbours.  An exchange parts two neighbours only if one of
them takes part in it, so those of kinds that are never exchanged stay together.
-/

section Neighbours

variable {α β : Type} {kind : α → Kind} {x y : α}

/-- Kinds that hoisting does not touch. -/
def Kind.stays (k : Kind) : Bool := k != .lineComment && !k.movesUp

/-- Neighbours before two others change places are neighbours behind it, unless they take part.  The
pair may be in front of the two or behind them; that it shares one with them is what the hypotheses
exclude. -/
lemma infix_swap {front back : List α} {p q : α} (h : [x, y] <:+: front ++ p :: q :: back)
    (hboth : ¬ (x = p ∧ y = q)) (hx : x ≠ q) (hy : y ≠ p) :
    [x, y] <:+: front ++ q :: p :: back := by
  obtain ⟨f, b, h⟩ := h
  rw [List.append_assoc, List.cons_append, List.singleton_append] at h
  rcases List.append_eq_append_iff.1 h with ⟨a, rfl, ha⟩ | ⟨a, rfl, ha⟩
  · match a, ha with
    | [], ha =>
      simp only [List.nil_append, List.cons.injEq] at ha
      exact absurd ⟨ha.1, ha.2.1⟩ hboth
    | [e], ha =>
      simp only [List.singleton_append, List.cons.injEq] at ha
      exact absurd ha.2.1 hy
    | e :: e' :: a, ha =>
      simp only [List.cons_append, List.cons.injEq] at ha
      exact ⟨f, a ++ q :: p :: back, by simp [ha.1, ha.2.1]⟩
  · match a, ha with
    | [], ha =>
      simp only [List.nil_append, List.cons.injEq] at ha
      exact absurd ⟨ha.1.symm, ha.2.1.symm⟩ hboth
    | [e], ha =>
      simp only [List.singleton_append, List.cons.injEq] at ha
      exact absurd ha.2.1.symm hx
    | e :: e' :: a, ha =>
      simp only [List.cons_append, List.cons.injEq] at ha
      exact ⟨front ++ q :: p :: a, b, by simp [ha.2.2]⟩

namespace Hoisted

/-- Neighbours that hoisting does not touch stay neighbours. -/
lemma infix_of_source {l m : List α} (h : Hoisted kind l m) (hx : (kind x).stays = true)
    (hy : (kind y).stays = true) (hl : [x, y] <:+: l) : [x, y] <:+: m := by
  have hne : ∀ {z k}, (kind z).stays = true → k = .lineComment ∨ k.movesUp = true →
      kind z ≠ k := by
    rintro z k hz hk rfl
    rcases hk with hk | hk <;> simp [Kind.stays, hk] at hz
  induction h with
  | refl => exact hl
  | @step front back comment mark _ hcomment hmark ih =>
    refine infix_swap ih ?_ ?_ ?_
    · rintro ⟨rfl, -⟩
      exact hne hx (.inl hcomment) rfl
    · rintro rfl
      exact hne hx (.inr hmark) rfl
    · rintro rfl
      exact hne hy (.inl hcomment) rfl

/-- Neighbours behind hoisting were neighbours before, but for marks and line comments. -/
lemma infix_of_target {l m : List α} (h : Hoisted kind l m) (hx : kind x ≠ .lineComment)
    (hy : (kind y).stays = true) (hm : [x, y] <:+: m) : [x, y] <:+: l := by
  induction h with
  | refl => exact hm
  | @step front back comment mark _ hcomment hmark ih =>
    refine ih (infix_swap hm ?_ ?_ ?_)
    · rintro ⟨-, rfl⟩
      simp [Kind.stays, hcomment] at hy
    · rintro rfl
      exact hx hcomment
    · rintro rfl
      simp [Kind.stays, hmark] at hy

/-- Hoisting keeps every element once. -/
lemma nodup {l m : List α} (h : Hoisted kind l m) (hl : l.Nodup) : m.Nodup := by
  induction h with
  | refl => exact hl
  | @step front back comment mark _ _ _ ih =>
    refine (List.Perm.nodup_iff ?_).1 ih
    exact (List.Perm.swap mark comment back).append_left front

/-- Hoisting goes along with a relation between elements of the same kind. -/
lemma forall₂ {R : β → α → Prop} {kind' : β → Kind} {l m : List α} {l' : List β}
    (h : Hoisted kind l m) (hl : List.Forall₂ R l' l) (hR : ∀ b a, R b a → kind' b = kind a) :
    ∃ m', Hoisted kind' l' m' ∧ List.Forall₂ R m' m := by
  induction h with
  | refl => exact ⟨l', .refl l', hl⟩
  | @step front back comment mark _ hcomment hmark ih =>
    obtain ⟨m', hm', hrel⟩ := ih
    obtain ⟨front', rest, rfl, hfront, hrest⟩ := exists_append_of_forall₂ hrel.flip
    obtain ⟨c, rest, hc, hmarked, rfl⟩ := List.forall₂_cons_left_iff.1 hrest
    obtain ⟨k, back', hk, hback, rfl⟩ := List.forall₂_cons_left_iff.1 hmarked
    refine ⟨front' ++ k :: c :: back', .step hm' ?_ ?_, ?_⟩
    · rw [hR _ _ hc, hcomment]
    · rw [hR _ _ hk, hmark]
    · exact List.rel_append hfront.flip (.cons hk (.cons hc hback.flip))

end Hoisted

end Neighbours

/-! ## What may touch

Layout keeps tokens apart unless a rule lets them touch.  The rules look at kinds and texts, and at
whether the tokens touched in the query; a token that could be carried on by the next one is kept
apart from it by most of them, but not by all.
-/

/-- No dot makes a name of a keyword, and no digits run into one. -/
structure Token.DotSafe (a b : Token) : Prop where
  keyword_dot : a.isKeyword = true → b.kind ≠ .dot
  dot_keyword : a.kind = .dot → b.isKeyword = false
  digits_dot : a.kind = .number → a.text.all Char.isDigit = true → b.kind ≠ .dot

/-- Tokens that stay what they are where a layout lets them touch.  A layout takes away blanks
around dots and in front of some operators, and what they kept apart must not run together. -/
structure Token.SafeBefore (a b : Token) : Prop extends a.DotSafe b where
  minus : a.text = "-".toList → '>' ∉ b.text.head?
  colon : a.text = ":".toList → b.text ≠ "::".toList

instance (a b : Token) : Decidable (a.SafeBefore b) :=
  decidable_of_iff ((a.isKeyword = true → b.kind ≠ .dot) ∧ (a.kind = .dot → b.isKeyword = false) ∧
    (a.kind = .number → a.text.all Char.isDigit = true → b.kind ≠ .dot) ∧
    (a.text = "-".toList → '>' ∉ b.text.head?) ∧ (a.text = ":".toList → b.text ≠ "::".toList))
    ⟨fun ⟨h₁, h₂, h₃, h₄, h₅⟩ => ⟨⟨h₁, h₂, h₃⟩, h₄, h₅⟩,
      fun ⟨⟨h₁, h₂, h₃⟩, h₄, h₅⟩ => ⟨h₁, h₂, h₃, h₄, h₅⟩⟩

namespace Stroke

variable {all es : List Stroke} {s r : Stroke}

/-- What a trace on a line still knows of its stroke: a comment leaves no text. -/
lemma Traces.text_unary {τ : Trace} (h : s.Traces es τ) (hs : s.Proper) :
    (s.isSign = true → τ.text = s.text) ∧ (τ.text = s.text ∨ τ.text = []) ∧
      (τ.unary = true → s.isSign = true) := by
  rcases h with ⟨unary, hsignals, rfl⟩ | ⟨-, -, rfl⟩
  · cases s with
    | write t => exact ⟨fun _ => rfl, .inl rfl, fun hunary => (hsignals hunary).1⟩
    | glue t =>
      refine ⟨fun _ => rfl, .inl rfl, fun hunary => ?_⟩
      simp only [trace, Trace.after, isUnary, Bool.and_true] at hunary
      exact hunary
    | mark kind text =>
      exact ⟨fun _ => rfl, .inl rfl, fun hunary => absurd hunary Bool.false_ne_true⟩
    | comment c =>
      refine ⟨fun hsign => ?_, .inr rfl, fun hunary => absurd hunary Bool.false_ne_true⟩
      have hcomment : c.token.isComment = true := hs
      simp only [isSign, Stroke.kind, Bool.and_eq_true, beq_iff_eq] at hsign
      simp [Token.isComment, hsign.1] at hcomment
  · exact ⟨fun _ => rfl, .inl rfl, fun hunary => absurd hunary Bool.false_ne_true⟩

/-- The reasons for which nothing blank stands between two strokes, as far as their kinds and texts
tell them. -/
inductive Clasps (s r : Stroke) : Prop
  | punctuation (h : r.kind.isPunctuation = true)
  | opening (h : s.kind = .openParen)
  | dot (h : s.kind = .dot)
  | sign (hsign : s.isSign = true) (hdash : s.text = "-".toList → '-' ∉ r.text.head?)
  /-- The second one binds to what stands in front of it. -/
  | bound (h : r.text ∈ ["::".toList, "]".toList, "[".toList])
  /-- The first one binds to what stands behind it. -/
  | binding (h : s.text ∈ ["::".toList, "[".toList])
  | string (h : r.kind = .string) (hname : s.kind = .identifier)

/-- Strokes that bind are told by the text of one of them. -/
lemma clasps_of_binds {τ : Trace} {t : Token} (hs : τ.text = s.text ∨ τ.text = [])
    (h : binds τ t = true) : s.Clasps (.write t) := by
  have hτ : ∀ w : Text, w ≠ [] → τ.text = w → s.text = w := by
    rintro w hw rfl
    exact (hs.resolve_right hw).symm
  simp only [binds, Bool.or_eq_true, beq_iff_eq] at h
  rcases h with ((h | h) | h) | h
  · exact .bound (by simp [Stroke.text, h])
  · exact .binding (by simp [hτ _ (by simp) h])
  · exact .bound (by simp [Stroke.text, h])
  · exact .binding (by simp [hτ _ (by simp) h])

/-- **Strokes that touch.**  The second one hugs the first, or the first one the second, or they
bind, or they touch in the source. -/
lemma Meets.clasps (h : s.Meets all r) (hs : s.Proper) (hr : r.Proper) : s.Clasps r := by
  rcases h with hmoves | ⟨t, rfl⟩ | ⟨t, es, rest, τ, rfl, -, htraces, hspace⟩
  · refine .punctuation ?_
    cases hk : r.kind <;> simp_all [Kind.movesUp, Kind.isPunctuation]
  · have hkind : t.kind = .openParen ∨ t.kind = .closeParen := hr
    refine .punctuation ?_
    rcases hkind with hk | hk <;> simp [Stroke.kind, hk, Kind.isPunctuation]
  · have hkind := htraces.kind
    obtain ⟨hsign, htext, hunary⟩ := htraces.text_unary hs
    unfold needsSpace at hspace
    split at hspace
    · cases hspace
    rename_i hopens
    split at hspace
    · rename_i hhugs
      refine .punctuation ?_
      change t.kind.isPunctuation = true
      cases hk : t.kind <;> simp_all [hugsLeft, Kind.isPunctuation]
    split at hspace
    · rename_i hright
      rw [Bool.or_eq_true, hkind] at hright
      rcases hright with hright | hright
      · cases hk : s.kind with
        | openParen => exact .opening hk
        | dot => exact .dot hk
        | _ => simp [hugsRight, hk] at hright
      · refine .sign (hunary hright) fun hminus hhead => hopens ?_
        have hτ : τ.text = "-".toList := (hsign (hunary hright)).trans hminus
        have hopen : opensWith "-" t.text = true := (opensWith_singleton '-' _).2 hhead
        rw [opensComment, hτ, hopen]
        rfl
    split at hspace
    · rename_i hbinds
      exact clasps_of_binds htext hbinds
    · unfold apartUnlessTouching at hspace
      cases hk : t.kind with
      | openParen => exact .punctuation (by simp [Stroke.kind, hk, Kind.isPunctuation])
      | string =>
        rw [hk] at hspace
        simp only at hspace
        split at hspace
        · rename_i hidentifier
          exact .string hk (hkind.symm.trans hidentifier)
        · cases hspace
      | operator =>
        rw [hk] at hspace
        simp only at hspace
        split at hspace
        · rename_i hbracket
          exact .bound (by simp [Stroke.text, hbracket])
        · cases hspace
      | _ =>
        rw [hk] at hspace
        cases hspace

/-- A stroke that touches another one is no line comment. -/
lemma Meets.kind_ne_lineComment (h : s.Meets all r) (hr : r.Proper) : r.kind ≠ .lineComment := by
  intro hkind
  rcases h with hmoves | ⟨t, rfl⟩ | ⟨t, -, -, -, rfl, -⟩
  · simp [hkind, Kind.movesUp] at hmoves
  · rcases hr with hr | hr <;> cases hr.symm.trans hkind
  · simp only [Stroke.kind] at hkind
    simp [Proper, Token.isComment, hkind] at hr

/-- A dot clings to a name. -/
lemma clings_dot (all : List Stroke) {t u : Token} (ht : t.kind = .identifier)
    (hu : u.kind = .dot) (htext : u.text = ".".toList) : (write t).Clings all (write u) where
  written := by
    refine ⟨u, rfl, fun unary _ => ?_⟩
    have hopens : ∀ before : Trace, opensComment before u = false := fun before => by
      simp [opensComment, htext, opensWith, after?]
    simp [needsSpace, hopens, hu, hugsLeft]
  stays := by simp [Stroke.kind, hu, Kind.movesUp]
  light := by simp [Stroke.kind, ht]
  behind := by simp [allowsBehind, ht, Token.isClauseWord, Token.spellsAny, Token.spells]
  before := by simp [allowsBefore, hu, Token.isKeyword]
  free := by simp [Stroke.kind, ht, Kind.movesUp]

/-- What follows a dot clings to it, unless it is a keyword. -/
lemma clings_of_dot (all : List Stroke) {t u : Token} (ht : t.kind = .dot)
    (htext : t.text = ".".toList)
    (hu : u.kind = .identifier ∨ u.kind = .number ∨ u.kind = .parameter) :
    (write t).Clings all (write u) where
  written := by
    refine ⟨u, rfl, fun unary _ => ?_⟩
    have hopens : opensComment ((write t).trace unary) u = false := by
      simp only [opensComment, trace, htext]
      rfl
    simp only [needsSpace, hopens]
    simp [trace, ht, hugsRight]
  stays := by rcases hu with hu | hu | hu <;> simp [Stroke.kind, hu, Kind.movesUp]
  light := by simp [Stroke.kind, ht]
  behind := by simp [allowsBehind, ht, Token.isClauseWord, Token.spellsAny, Token.spells]
  before := by rcases hu with hu | hu | hu <;> simp [allowsBefore, hu, Token.isKeyword]
  free := by simp [Stroke.kind, ht, Kind.movesUp]

end Stroke

/-! ## Tokens and where they come from

An `Origin` is a token as the lexer read it beside the word that it became when keywords were
settled.  The two differ where a keyword was demoted to a name, and what is to be read again is the
former.
-/

/-- A token as it was read, and the word that it is among those of its query.  The two differ in
kind where a keyword was demoted. -/
structure Origin where
  raw : Token
  word : Word
deriving DecidableEq, Repr

/-- The kind that the token has in its query. -/
def Origin.kind (o : Origin) : Kind := o.word.token.kind

/-- A token of a query and the slot that holds it in a layout. -/
structure Site where
  origin : Origin
  slot : Slot
deriving DecidableEq, Repr

namespace Site

/-- The token as it was read. -/
def raw (z : Site) : Token := z.origin.raw

/-- The token as its query has it. -/
def token (z : Site) : Token := z.origin.word.token

/-- The token as a layout shows it. -/
def shown (case : KeywordCase) (z : Site) : Text := written case z.token.kind z.raw.text

end Site

/-- The tokens of a query in the slots of a layout.  The fields are what was known of each side
before, and `order` puts the two sides in step up to hoisting. -/
structure Sited (raw : List Token) (origins : List Origin) (all : List Stroke)
    (sites : List Site) : Prop where
  scanned : Scanned none raw
  raws : origins.map Origin.raw = raw.filter (·.kind != .blank)
  nodup : origins.Nodup
  demotes : ∀ o ∈ origins, o.raw.Demotes o.word.token
  lexed : ∀ o ∈ origins, o.word.token.Lexed
  safe : origins.IsChain fun a b => a.word.token.SafeBefore b.word.token
  order : Hoisted Origin.kind origins (sites.map Site.origin)
  settles : ∀ z ∈ sites, Settles z.origin.word.stroke z.slot.stroke
  chain : (sites.map Site.slot).IsChain (Slot.Follows all)
  blank : ∀ z ∈ sites, ∀ c ∈ z.slot.space, c = ' ' ∨ c = '\n'

namespace Sited

variable {raw : List Token} {origins front back : List Origin} {all : List Stroke}
  {sites : List Site} {o q : Origin}

/-- A token and its neighbours among the tokens that were read: the origins on both sides of it are
the tokens on both sides, blanks left out. -/
lemma exists_split (h : Sited raw origins all sites) (ho : origins = front ++ o :: back) :
    ∃ pre post, raw = pre ++ o.raw :: post ∧ pre.filter (·.kind != .blank) = front.map Origin.raw ∧
      post.filter (·.kind != .blank) = back.map Origin.raw := by
  have hraws := h.raws
  rw [ho, List.map_append, List.map_cons] at hraws
  obtain ⟨pre, rest, rfl, hpre, hrest⟩ := List.filter_eq_append_iff.1 hraws.symm
  obtain ⟨blanks, post, rfl, hblanks, -, hpost⟩ := List.filter_eq_cons_iff.1 hrest
  refine ⟨pre ++ blanks, post, by simp, ?_, hpost⟩
  rw [List.filter_append, hpre, List.filter_eq_nil_iff.2 hblanks, List.append_nil]

/-- A token is a lexeme of its text. -/
lemma exists_lexeme (h : Sited raw origins all sites) (ho : o ∈ origins) :
    ∃ before c v r, o.raw.text = c :: v ∧ Lexeme before c v r o.raw.kind := by
  obtain ⟨front, back, hsplit⟩ := List.append_of_mem ho
  obtain ⟨pre, post, hraw, -, -⟩ := h.exists_split hsplit
  have hscanned := h.scanned
  rw [hraw] at hscanned
  obtain ⟨⟨c, v, htext, hlexeme⟩, -⟩ := hscanned.of_append
  exact ⟨_, c, v, _, htext, hlexeme⟩

/-- A name that spells a keyword has a dot beside it.  It was not read as a keyword because of the
character on one of its sides.  Such a dot is a token of its own: behind the name it is where the
next token starts, and in front of a word only a dot ends in a dot. -/
lemma dot_beside (h : Sited raw origins all sites) (ho : origins = front ++ o :: back)
    (hkind : o.raw.kind = .identifier) (hword : Keyword.ofWord? o.raw.text ≠ none) :
    (∃ p ∈ front.getLast?, p.raw.kind = .dot) ∨ ∃ q ∈ back.head?, q.raw.kind = .dot := by
  obtain ⟨pre, post, hraw, hpre, hpost⟩ := h.exists_split ho
  have hscanned := h.scanned
  rw [hraw] at hscanned
  obtain ⟨⟨c, v, htext, hlexeme⟩, hrest⟩ := hscanned.of_append
  obtain ⟨hwordText, hwordKind, -, -⟩ := hlexeme.isWordText (by rw [hkind]; rfl)
  have hdot : endOf none pre = some '.' ∨ '.' ∈ (post.flatMap Token.text).head? := by
    by_contra hdot
    rw [not_or] at hdot
    rw [htext] at hword
    exact hword (ofWord?_eq_none_of_wordKind (hwordKind.symm.trans hkind) hdot.1 hdot.2)
  rcases hdot with hdot | hdot
  · left
    rcases List.eq_nil_or_concat pre with rfl | ⟨pre, d, rfl⟩
    · cases hdot
    · rw [List.concat_eq_append] at hdot hpre hscanned
      rw [endOf_concat] at hdot
      rw [List.append_assoc] at hscanned
      obtain ⟨⟨e, w, hd, hdlexeme⟩, -⟩ := hscanned.of_append
      have hdkind : d.kind = .dot :=
        hdlexeme.dot_of_getLast? (hd ▸ hdot) ⟨c, by simp [htext], hwordText.head⟩
      have hlast : (front.map Origin.raw).getLast? = some d := by simp [← hpre, hdkind]
      rw [List.getLast?_map] at hlast
      obtain ⟨p, hp, rfl⟩ := Option.map_eq_some_iff.1 hlast
      exact ⟨p, hp, hdkind⟩
  · right
    rcases post with _ | ⟨d, post⟩
    · cases hdot
    · obtain ⟨⟨e, w, hd, hdlexeme⟩, -⟩ := hrest
      obtain rfl : e = '.' := by simpa [hd] using hdot
      have hdkind := hdlexeme.of_dot.1
      have hhead : (back.map Origin.raw).head? = some d := by simp [← hpost, hdkind]
      rw [List.head?_map] at hhead
      obtain ⟨q, hq, rfl⟩ := Option.map_eq_some_iff.1 hhead
      exact ⟨q, hq, hdkind⟩

/-- A name of digits only has a dot and a word behind it, and they keep it from being a number.  So
`1.a` is a name, a dot and a name, and it is the two tokens behind the digits that decide on
this. -/
lemma dot_behind_digits (h : Sited raw origins all sites) (ho : origins = front ++ o :: back)
    (hkind : o.raw.kind.isWord = true) {c : Char} {v : Text} (htext : o.raw.text = c :: v)
    (hc : c.isDigit = true) (hv : ∀ d ∈ v, Char.isDigit d = true) :
    ∃ p x rest, back = p :: x :: rest ∧ p.raw.kind = .dot ∧
      (x.raw.kind = .identifier ∨ x.raw.kind = .number ∨ x.raw.kind = .parameter) ∧
      ∀ R : Text, (∀ d ∈ R.head?, isWordChar d = false ∧ d ≠ '+' ∧ d ≠ '-') →
        number? (v ++ '.' :: (x.raw.text ++ R)) = none := by
  obtain ⟨pre, post, hraw, -, hpost⟩ := h.exists_split ho
  have hscanned := h.scanned
  rw [hraw] at hscanned
  obtain ⟨⟨c', v', htext', hlexeme⟩, hrest⟩ := hscanned.of_append
  obtain ⟨rfl, rfl⟩ := List.cons.inj (htext.symm.trans htext')
  obtain ⟨-, -, hr, hnumber⟩ := hlexeme.isWordText hkind
  obtain ⟨e, t, hsplit, he⟩ := exists_of_digits hv hr (hnumber hc)
  rcases post with _ | ⟨d, post⟩
  · cases hsplit
  obtain ⟨⟨e', w, hd, hdlexeme⟩, hrest⟩ := hrest
  rw [List.flatMap_cons, hd, List.cons_append] at hsplit
  obtain ⟨rfl, hbehind⟩ := List.cons.inj hsplit
  obtain ⟨hdkind, rfl⟩ := hdlexeme.of_dot
  rcases post with _ | ⟨x, post⟩
  · cases hbehind
  obtain ⟨⟨f, w, hx, hxlexeme⟩, -⟩ := hrest
  rw [hd] at hxlexeme
  rw [List.nil_append, List.flatMap_cons, hx, List.cons_append] at hbehind
  obtain ⟨rfl, -⟩ := List.cons.inj hbehind
  have hxkind : x.kind = .identifier ∨ x.kind = .number ∨ x.kind = .parameter := by
    rcases hxlexeme.of_isWordChar he with hword | hnumber | hparameter
    · left
      rw [(hxlexeme.isWordText hword).2.1]
      simp [wordKind]
    · exact .inr (.inl hnumber)
    · exact .inr (.inr hparameter)
  have hxblank : x.kind ≠ .blank := by rcases hxkind with hk | hk | hk <;> simp [hk]
  have hback : back.map Origin.raw = d :: x :: post.filter (·.kind != .blank) := by
    simp [← hpost, hdkind, hxblank]
  obtain ⟨p, rest, rfl, rfl, hbehind⟩ := List.map_eq_cons_iff.1 hback
  obtain ⟨y, rest, rfl, rfl, -⟩ := List.map_eq_cons_iff.1 hbehind
  refine ⟨p, y, rest, rfl, hdkind, hxkind, fun R hR => ?_⟩
  have hnone := hnumber hc
  rw [List.flatMap_cons, hd, List.flatMap_cons, hx] at hnone
  rw [hx]
  exact number?_digits_dot_eq_none hv hxlexeme he (by simpa using hnone) hR

/-- Neighbours in a layout are safe, but for marks and comments. -/
lemma safe_of_neighbours (h : Sited raw origins all sites) {front back : List Site} {z z' : Site}
    (hsites : sites = front ++ z :: z' :: back) (hz : z.token.kind ≠ .lineComment)
    (hz' : z'.token.kind.stays = true) : z.token.SafeBefore z'.token := by
  have hinfix : [z.origin, z'.origin] <:+: sites.map Site.origin :=
    ⟨front.map Site.origin, back.map Site.origin, by simp [hsites]⟩
  obtain ⟨f, b, hsplit⟩ := h.order.infix_of_target hz hz' hinfix
  have hsafe := h.safe
  rw [← hsplit] at hsafe
  exact hsafe.left_of_append.right_of_append.rel

/-- No token is in two places. -/
lemma eq_of_origin_eq (h : Sited raw origins all sites) {front back front' back' : List Site}
    {z z' : Site} (hsites : sites = front ++ z :: back) (hsites' : sites = front' ++ z' :: back')
    (ho : z.origin = z'.origin) : front = front' ∧ z = z' ∧ back = back' := by
  have hnodup := h.order.nodup h.nodup
  obtain rfl : z = z' := List.inj_on_of_nodup_map hnodup (by simp [hsites]) (by simp [hsites']) ho
  have hsame := hnodup.of_map
  rw [hsites', List.nodup_append] at hsame
  have hcons := List.nodup_cons.1 hsame.2.1
  have hfront : z ∉ front' := fun hz => hsame.2.2 z hz z (List.mem_cons_self ..) rfl
  have hback : z ∉ back' := hcons.1
  obtain ⟨rfl, -, rfl⟩ :=
    (List.append_cons_inj_of_notMem hfront hback).1 (hsites'.symm.trans hsites)
  exact ⟨rfl, rfl, rfl⟩

/-- Neighbours in a query are neighbours in a layout, but for marks and comments. -/
lemma exists_neighbours (h : Sited raw origins all sites) (hoq : [o, q] <:+: origins)
    (ho : o.kind.stays = true) (hq : q.kind.stays = true) :
    ∃ front z z' back, sites = front ++ z :: z' :: back ∧ z.origin = o ∧ z'.origin = q := by
  obtain ⟨f, b, hsplit⟩ := h.order.infix_of_source ho hq hoq
  rw [List.append_assoc, List.cons_append, List.singleton_append] at hsplit
  obtain ⟨front, rest, hsites, -, hrest⟩ := List.map_eq_append_iff.1 hsplit.symm
  obtain ⟨z, rest, rfl, hz, hrest⟩ := List.map_eq_cons_iff.1 hrest
  obtain ⟨z', back, rfl, hz', -⟩ := List.map_eq_cons_iff.1 hrest
  exact ⟨front, z, z', back, hsites, hz, hz'⟩

/-- What follows a token in its query follows it in a layout, but for marks and comments. -/
lemma exists_next (h : Sited raw origins all sites) (hoq : [o, q] <:+: origins)
    (ho : o.kind.stays = true) (hq : q.kind.stays = true) {front back : List Site} {z : Site}
    (hsites : sites = front ++ z :: back) (hz : z.origin = o) :
    ∃ z' rest, back = z' :: rest ∧ z'.origin = q := by
  obtain ⟨f, x, y, b, hsplit, hx, hy⟩ := h.exists_neighbours hoq ho hq
  obtain ⟨-, -, rfl⟩ := h.eq_of_origin_eq hsites hsplit (hz.trans hx.symm)
  exact ⟨y, b, rfl, hy⟩

/-- What a token follows in its query it follows in a layout, but for marks and comments. -/
lemma exists_previous (h : Sited raw origins all sites) (hoq : [o, q] <:+: origins)
    (ho : o.kind.stays = true) (hq : q.kind.stays = true) {front back : List Site} {z : Site}
    (hsites : sites = front ++ z :: back) (hz : z.origin = q) :
    ∃ rest z', front = rest ++ [z'] ∧ z'.origin = o := by
  obtain ⟨f, x, y, b, hsplit, hx, hy⟩ := h.exists_neighbours hoq ho hq
  obtain ⟨rfl, -, -⟩ := h.eq_of_origin_eq hsites
    (show sites = (f ++ [x]) ++ y :: b by simp [hsplit]) (hz.trans hy.symm)
  exact ⟨f, x, rfl, hx⟩

/-! ### What a site holds -/

variable {case : KeywordCase} {z : Site}

lemma mem_origins (h : Sited raw origins all sites) (hz : z ∈ sites) : z.origin ∈ origins :=
  h.order.mem_iff.1 (List.mem_map_of_mem hz)

lemma demotes_site (h : Sited raw origins all sites) (hz : z ∈ sites) : z.raw.Demotes z.token :=
  h.demotes _ (h.mem_origins hz)

lemma lexed_site (h : Sited raw origins all sites) (hz : z ∈ sites) : z.token.Lexed :=
  h.lexed _ (h.mem_origins hz)

lemma lexeme_site (h : Sited raw origins all sites) (hz : z ∈ sites) :
    ∃ before c v r, z.raw.text = c :: v ∧ Lexeme before c v r z.raw.kind :=
  h.exists_lexeme (h.mem_origins hz)

lemma kind_stroke (h : Sited raw origins all sites) (hz : z ∈ sites) :
    z.slot.stroke.kind = z.token.kind :=
  (h.settles z hz).kind_text.1.trans z.origin.word.kind_stroke

lemma text_stroke (h : Sited raw origins all sites) (hz : z ∈ sites) :
    z.slot.stroke.text = z.raw.text := by
  rw [(h.settles z hz).kind_text.2, Word.text_stroke]
  exact (h.demotes_site hz).text

lemma shown_stroke (h : Sited raw origins all sites) (hz : z ∈ sites) :
    z.slot.stroke.shown case = z.shown case := by
  rw [Stroke.shown, h.kind_stroke hz, h.text_stroke hz, Site.shown]

/-- The stroke of a site is what it is called. -/
lemma proper (h : Sited raw origins all sites) (hz : z ∈ sites) : z.slot.stroke.Proper := by
  have hsettled : Settled ([z.origin.word].map Word.stroke) [z.slot.stroke] :=
    .cons (h.settles z hz) .nil
  exact proper_of_settled hsettled _ (List.mem_singleton_self _)

/-- Names, numbers, parameters, dots and keywords are written as the tokens that they are. -/
lemma stroke_eq_write (h : Sited raw origins all sites) (hz : z ∈ sites)
    (hkind : z.token.kind.stays = true) (hparen : z.token.kind ≠ .openParen)
    (hcomment : z.token.kind ≠ .blockComment) : z.slot.stroke = .write z.token := by
  have hcode : z.token.isComment = false := by
    cases hk : z.token.kind <;> simp_all [Kind.stays, Token.isComment]
  have hstroke : z.origin.word.stroke = .write z.token :=
    if_neg (Bool.not_eq_true _ ▸ hcode)
  have hsettles := h.settles z hz
  rw [hstroke] at hsettles
  generalize hs : z.slot.stroke = s at hsettles
  cases hsettles with
  | refl => rfl
  | mark t ht => rcases ht with ht | ht <;> simp [ht, Kind.stays, Kind.movesUp] at hkind
  | glue t ht =>
    rcases ht with ht | ht
    · exact absurd ht hparen
    · simp [ht, Kind.stays, Kind.movesUp] at hkind

/-- A token that is no keyword in its query was none to the lexer, or is one that was demoted. -/
lemma kind_eq (h : Sited raw origins all sites) (hz : z ∈ sites)
    (hkind : z.token.kind ≠ .identifier) : z.raw.kind = z.token.kind :=
  ((h.demotes_site hz).kind.resolve_right fun hdemoted => hkind hdemoted.2).symm

/-- A token that was no keyword to the lexer is what it was. -/
lemma kind_of_raw (h : Sited raw origins all sites) (ho : o ∈ origins)
    (hraw : o.raw.isKeyword = false) : o.kind = o.raw.kind :=
  (h.demotes o ho).kind.resolve_right fun hdemoted => by simp [hraw] at hdemoted

/-- Names, dots, numbers and parameters stay where they are. -/
lemma stays_of_raw (h : Sited raw origins all sites) (ho : o ∈ origins)
    (hkind : o.raw.kind ∈ [.identifier, .dot, .number, .parameter]) : o.kind.stays = true := by
  simp only [List.mem_cons, List.not_mem_nil, or_false] at hkind
  rw [h.kind_of_raw ho (by rcases hkind with hk | hk | hk | hk <;> simp [Token.isKeyword, hk])]
  rcases hkind with hk | hk | hk | hk <;> simp [hk, Kind.stays, Kind.movesUp]

lemma kind_eq_of_raw (h : Sited raw origins all sites) (hz : z ∈ sites)
    (hraw : z.raw.isKeyword = false) : z.token.kind = z.raw.kind :=
  h.kind_of_raw (h.mem_origins hz) hraw

/-- A cast and a bracket are operators. -/
lemma operator_of_text (h : Sited raw origins all sites) (hz : z ∈ sites)
    (htext : z.raw.text ∈ ["::".toList, "[".toList, "]".toList]) : z.token.kind = .operator := by
  obtain ⟨before, c, v, r, hsplit, hlexeme⟩ := h.lexeme_site hz
  have hraw := hlexeme.operator_of_text (hsplit ▸ htext)
  rw [h.kind_eq_of_raw hz (by simp [Token.isKeyword, hraw]), hraw]

lemma kind_raw_ne_blank (h : Sited raw origins all sites) (hz : z ∈ sites) :
    z.raw.kind ≠ .blank := by
  have hmem : z.raw ∈ origins.map Origin.raw := List.mem_map_of_mem (h.mem_origins hz)
  rw [h.raws, List.mem_filter, bne_iff_ne] at hmem
  exact hmem.2

/-- What is shown is neither empty nor does it start or end in a blank. -/
lemma solid_shown (h : Sited raw origins all sites) (hz : z ∈ sites) (case : KeywordCase) :
    Solid (z.shown case) := by
  have hdemotes := h.demotes_site hz
  have hblank : z.token.kind ≠ .blank := fun hblank =>
    h.kind_raw_ne_blank hz ((h.kind_eq hz (by simp [hblank])).trans hblank)
  rw [Site.shown, ← hdemotes.text]
  exact (h.lexed_site hz).solid_written hblank case

/-- A keyword spells the same keyword as it is shown. -/
lemma ofWord?_shown (h : Sited raw origins all sites) (hz : z ∈ sites) {word : Keyword}
    (hkind : z.token.kind = .keyword word) (case : KeywordCase) :
    Keyword.ofWord? (z.shown case) = some word := by
  have hword := (h.lexed_site hz).keyword word hkind
  rw [(h.demotes_site hz).text] at hword
  rw [Site.shown, hkind, written, ← ofWord?_asciiUpper, asciiUpper_apply hword,
    ofWord?_asciiUpper]
  exact hword

lemma shown_eq (hkeyword : z.token.isKeyword = false) (hcomment : z.token.kind ≠ .lineComment) :
    z.shown case = z.raw.text := by
  unfold Site.shown written
  split
  · rename_i word hword
    simp [Token.isKeyword, hword] at hkeyword
  · exact absurd ‹_› hcomment
  · rfl

/-- A punctuation mark is one character. -/
lemma punctuation_of_kind (h : Sited raw origins all sites) (hz : z ∈ sites)
    (hkind : z.token.kind.isPunctuation = true) :
    ∃ c, punctuation? c = some z.token.kind ∧ z.raw.text = [c] := by
  obtain ⟨before, c, v, r, htext, hlexeme⟩ := h.lexeme_site hz
  rw [h.kind_eq hz (by rintro hk; simp [hk, Kind.isPunctuation] at hkind)] at hlexeme
  obtain ⟨hmark, rfl⟩ := hlexeme.of_isPunctuation hkind
  exact ⟨c, hmark, htext⟩

/-! ### Touching sites -/

/-- **Sites that touch.**  The ways in which a token may stand right in front of another, as far as
its first character goes. -/
inductive Touches (z z' : Site) (d : Char) : Prop
  | mark (h : punctuation? d = some z'.token.kind)
  | opening (h : z.token.kind = .openParen)
  | dot (h : z.token.kind = .dot)
  | plus (h : z.token.kind = .operator) (htext : z.raw.text = "+".toList)
  | minus (h : z.token.kind = .operator) (htext : z.raw.text = "-".toList) (hdash : d ≠ '-')
      (harrow : d ≠ '>')
  | bracket (hd : d = '[' ∨ d = ']') (h : z'.token.kind = .operator)
  | cast (hd : d = ':') (h : z'.token.kind = .operator) (htext : z.raw.text ≠ ":".toList)
  | index (h : z.token.kind = .operator) (htext : z.raw.text ∈ ["::".toList, "[".toList])
  | string (hd : d = '\'') (h : z.token.kind = .identifier)

lemma follows (h : Sited raw origins all sites) {front back : List Site} {z z' : Site}
    (hsites : sites = front ++ z :: z' :: back) : z.slot.Follows all z'.slot := by
  have hchain := h.chain
  rw [hsites, List.map_append, List.map_cons, List.map_cons] at hchain
  exact hchain.right_of_append.rel

/-- What is shown starts like the text of the token, unless it is a keyword, which starts with a
letter. -/
lemma head?_shown (h : Sited raw origins all sites) (hz : z ∈ sites)
    (hcomment : z.token.kind ≠ .lineComment) {d : Char} (hd : d ∈ (z.shown case).head?) :
    z.token.isKeyword = true ∧ d.isAlpha = true ∨ d ∈ z.raw.text.head? := by
  by_cases hkeyword : z.token.isKeyword = true
  · obtain ⟨word, hword, -⟩ := exists_word_of_isKeyword (h.lexed_site hz) hkeyword
    exact .inl ⟨hkeyword, (isAlpha_of_ofWord? (h.ofWord?_shown hz hword case)).2 d
      (List.mem_of_mem_head? hd)⟩
  · rw [shown_eq (by simpa using hkeyword) hcomment] at hd
    exact .inr hd

/-- Nothing blank between two sites is a way for them to touch.  The layout leaves out a space for
the reasons that `Stroke.Clasps` lists, and each of them is turned into what it says about the texts
on both sides. -/
lemma touches (h : Sited raw origins all sites) {front back : List Site} {z z' : Site}
    (hsites : sites = front ++ z :: z' :: back) (hspace : z'.slot.space = []) {d : Char}
    (hd : d ∈ (z'.shown case).head?) : Touches z z' d := by
  have hz : z ∈ sites := by simp [hsites]
  have hz' : z' ∈ sites := by simp [hsites]
  have hfollows := h.follows hsites
  have hcomment : z.token.kind ≠ .lineComment := fun hcomment => by
    obtain ⟨rest, hrest⟩ := hfollows.note ((h.kind_stroke hz).trans hcomment)
    simp [hspace] at hrest
  have hmeets := hfollows.meets hspace
  have hcomment' : z'.token.kind ≠ .lineComment :=
    h.kind_stroke hz' ▸ hmeets.kind_ne_lineComment (h.proper hz')
  have hhead := h.head?_shown hz' hcomment' hd
  have hstart : z'.token.isKeyword = false → d ∈ z'.raw.text.head? := fun hkeyword =>
    hhead.resolve_left fun hd => by simp [hkeyword] at hd
  by_cases hpunctuation : z'.token.kind.isPunctuation = true
  · obtain ⟨c, hmark, htext⟩ := h.punctuation_of_kind hz' hpunctuation
    have hd := hstart (by
      cases hk : z'.token.kind <;> simp_all [Token.isKeyword, Kind.isPunctuation])
    obtain rfl : c = d := by simpa [htext] using hd
    exact .mark hmark
  have hstays : z'.token.kind.stays = true := by
    cases hk : z'.token.kind <;> simp_all [Kind.stays, Kind.movesUp, Kind.isPunctuation]
  have hsafe := h.safe_of_neighbours hsites hcomment hstays
  cases hmeets.clasps (h.proper hz) (h.proper hz') with
  | punctuation hkind => exact absurd (h.kind_stroke hz' ▸ hkind) hpunctuation
  | opening hopening => exact .opening (h.kind_stroke hz ▸ hopening)
  | dot hdot => exact .dot (h.kind_stroke hz ▸ hdot)
  | sign hsign hdash =>
    rw [h.text_stroke hz, h.text_stroke hz'] at hdash
    rw [Stroke.isSign, h.kind_stroke hz, h.text_stroke hz, Bool.and_eq_true, beq_iff_eq,
      Bool.or_eq_true, beq_iff_eq, beq_iff_eq] at hsign
    obtain ⟨hkind, hminus | hplus⟩ := hsign
    · have harrow := hsafe.minus ((h.demotes_site hz).text.trans hminus)
      rw [(h.demotes_site hz').text] at harrow
      rcases hhead with ⟨-, hletter⟩ | hd
      · refine .minus hkind hminus ?_ ?_ <;> rintro rfl <;> cases hletter
      · refine .minus hkind hminus ?_ ?_ <;> rintro rfl
        · exact hdash hminus hd
        · exact harrow hd
    · exact .plus hkind hplus
  | bound hbinds =>
    rw [h.text_stroke hz'] at hbinds
    have hoperator := h.operator_of_text hz' (by
      simp only [List.mem_cons, List.not_mem_nil, or_false] at hbinds ⊢
      exact hbinds.imp_right Or.symm)
    have hd := hstart (by simp [Token.isKeyword, hoperator])
    simp only [List.mem_cons, List.not_mem_nil, or_false] at hbinds
    rcases hbinds with hcast | hclosing | hopening
    · refine .cast (by simpa [hcast, eq_comm] using hd) hoperator fun hcolon => ?_
      exact hsafe.colon ((h.demotes_site hz).text.trans hcolon)
        ((h.demotes_site hz').text.trans hcast)
    · exact .bracket (.inr (by simpa [hclosing, eq_comm] using hd)) hoperator
    · exact .bracket (.inl (by simpa [hopening, eq_comm] using hd)) hoperator
  | binding hindex =>
    rw [h.text_stroke hz] at hindex
    exact .index (h.operator_of_text hz (by
      simp only [List.mem_cons, List.not_mem_nil, or_false] at hindex ⊢
      exact hindex.imp_right .inl)) hindex
  | string hstring hname =>
    rw [h.kind_stroke hz'] at hstring
    rw [h.kind_stroke hz] at hname
    obtain ⟨before, c, v, r, htext, hlexeme⟩ := h.lexeme_site hz'
    rw [h.kind_eq hz' (by simp [hstring]), hstring] at hlexeme
    have hd := hstart (by simp [Token.isKeyword, hstring])
    obtain rfl : c = d := by simpa [htext] using hd
    exact .string hlexeme.of_string hname

lemma text_dot (h : Sited raw origins all sites) (hz : z ∈ sites) (hkind : z.token.kind = .dot) :
    z.raw.text = ".".toList := by
  obtain ⟨before, c, v, r, htext, hlexeme⟩ := h.lexeme_site hz
  rw [h.kind_eq hz (by simp [hkind]), hkind] at hlexeme
  obtain ⟨rfl, rfl⟩ := hlexeme.eq_dot
  exact htext

lemma text_openParen (h : Sited raw origins all sites) (hz : z ∈ sites)
    (hkind : z.token.kind = .openParen) : z.raw.text = "(".toList := by
  obtain ⟨c, hmark, htext⟩ := h.punctuation_of_kind hz (by rw [hkind]; rfl)
  rw [hkind] at hmark
  rcases of_punctuation? hmark with h | h | h | h | h
  case inl => rw [htext, h.1]; rfl
  all_goals cases h.2

/-- A dot behind a name touches it. -/
lemma space_dot (h : Sited raw origins all sites) {front back : List Site} {z z' : Site}
    (hsites : sites = front ++ z :: z' :: back) (hz : z.raw.kind = .identifier)
    (hdot : z'.raw.kind = .dot) : z'.slot.space = [] := by
  have hmem : z ∈ sites := by simp [hsites]
  have hmem' : z' ∈ sites := by simp [hsites]
  have hkind := (h.kind_eq_of_raw hmem (by simp [Token.isKeyword, hz])).trans hz
  have hkind' := (h.kind_eq_of_raw hmem' (by simp [Token.isKeyword, hdot])).trans hdot
  by_contra hspace
  refine (h.follows hsites).parts hspace ?_
  rw [h.stroke_eq_write hmem (by simp [hkind, Kind.stays, Kind.movesUp]) (by simp [hkind])
    (by simp [hkind]), h.stroke_eq_write hmem' (by simp [hkind', Kind.stays, Kind.movesUp])
    (by simp [hkind']) (by simp [hkind'])]
  exact Stroke.clings_dot all hkind hkind'
    ((h.demotes_site hmem').text.trans (h.text_dot hmem' hkind'))

/-- A name behind a dot touches it, and so does a number or a parameter. -/
lemma space_behind_dot (h : Sited raw origins all sites) {front back : List Site} {z z' : Site}
    (hsites : sites = front ++ z :: z' :: back) (hdot : z.raw.kind = .dot)
    (hz' : z'.raw.kind = .identifier ∨ z'.raw.kind = .number ∨ z'.raw.kind = .parameter) :
    z'.slot.space = [] := by
  have hmem : z ∈ sites := by simp [hsites]
  have hmem' : z' ∈ sites := by simp [hsites]
  have hkind := (h.kind_eq_of_raw hmem (by simp [Token.isKeyword, hdot])).trans hdot
  have hraw : z'.token.kind = z'.raw.kind :=
    h.kind_eq_of_raw hmem' (by rcases hz' with h | h | h <;> simp [Token.isKeyword, h])
  rw [← hraw] at hz'
  by_contra hspace
  refine (h.follows hsites).parts hspace ?_
  rw [h.stroke_eq_write hmem (by simp [hkind, Kind.stays, Kind.movesUp]) (by simp [hkind])
    (by simp [hkind]), h.stroke_eq_write hmem'
    (by rcases hz' with h | h | h <;> simp [h, Kind.stays, Kind.movesUp])
    (by rcases hz' with h | h | h <;> simp [h]) (by rcases hz' with h | h | h <;> simp [h])]
  exact Stroke.clings_of_dot all hkind
    ((h.demotes_site hmem).text.trans (h.text_dot hmem hkind)) hz'

end Sited

/-! ## The sites of a layout -/

/-- Related lists as one list of pairs. -/
lemma exists_pairs_of_forall₂ {α β : Type} {R : α → β → Prop} {l : List α} {m : List β}
    (h : List.Forall₂ R l m) :
    ∃ ps : List (α × β), ps.map Prod.fst = l ∧ ps.map Prod.snd = m ∧ ∀ p ∈ ps, R p.1 p.2 := by
  obtain ⟨hlength, hzip⟩ := List.forall₂_iff_zip.1 h
  exact ⟨l.zip m, List.map_fst_zip hlength.le, List.map_snd_zip hlength.ge, fun p hp => hzip hp⟩

section Sets

variable {case : KeywordCase} {query out : Text} {raw tokens : List Token} {all : List Stroke}
  {slots : List Slot}

/-- The tokens of a query, each beside the token that the lexer read. -/
lemma exists_origins (raw : List Token) :
    ∃ origins : List Origin, origins.map Origin.raw = raw.filter (·.kind != .blank) ∧
      origins.map Origin.word = words (settleKeywords none raw) ∧
      ∀ o ∈ origins, o.raw.Demotes o.word.token := by
  have hdemotes : List.Forall₂ (fun (t : Token) (w : Word) => t.Demotes w.token)
      (raw.filter (·.kind != .blank)) (words (settleKeywords none raw)) := by
    rw [← List.forall₂_map_right_iff (f := Word.token), words, map_token_wordsOf]
    refine List.rel_filter (fun t u htu => ?_) (demotes_settleKeywords none raw)
    rcases htu.kind with hkind | ⟨hkeyword, hkind⟩
    · simp [hkind]
    · obtain ⟨word, hword⟩ := isKeyword_iff.1 hkeyword
      simp [hkind, hword]
  obtain ⟨ps, hfst, hsnd, hps⟩ := exists_pairs_of_forall₂ hdemotes
  refine ⟨ps.map fun p => ⟨p.1, p.2⟩, by rw [← hfst, List.map_map]; rfl,
    by rw [← hsnd, List.map_map]; rfl, fun o ho => ?_⟩
  obtain ⟨p, hp, rfl⟩ := List.mem_map.1 ho
  exact hps p hp

/-- **The tokens of a query have their sites** in the slots that a text is set in: each word of the
query stands in one slot, and the sites are in the order of the text. -/
theorem exists_sited (hraw : lexemesFrom none 0 query = .ok raw)
    (hsettled : Settled ((words (settleKeywords none raw)).map Word.stroke) all)
    (hsets : Sets case all out slots)
    (hsafe : ((settleKeywords none raw).filter (·.kind != .blank)).IsChain Token.SafeBefore) :
    ∃ origins sites, Sited raw origins all sites ∧
      origins.map Origin.word = words (settleKeywords none raw) ∧ sites.map Site.slot = slots := by
  have htokens : tokenize query = .ok (settleKeywords none raw) := by rw [tokenize, hraw]; rfl
  obtain ⟨origins, hraws, hwords, hdemotes⟩ := exists_origins raw
  have htoken : origins.map (Word.token ∘ Origin.word) =
      (settleKeywords none raw).filter (·.kind != .blank) := by
    rw [← List.map_map, hwords, words, map_token_wordsOf]
  have hsettles : List.Forall₂ (fun (o : Origin) s => Settles o.word.stroke s) origins all := by
    rw [← hwords, List.map_map] at hsettled
    exact List.forall₂_map_left_iff.1 hsettled
  obtain ⟨shown, horder, hshown⟩ := hsets.order.forall₂ hsettles fun o s hos => by
    rw [hos.kind_text.1, Word.kind_stroke]
  obtain ⟨ps, hfst, hsnd, hps⟩ := exists_pairs_of_forall₂ (List.forall₂_map_right_iff.1 hshown)
  refine ⟨origins, ps.map fun p => ⟨p.1, p.2⟩, ?_, hwords, by rw [← hsnd, List.map_map]; rfl⟩
  constructor
  case scanned => exact scanned_of_lexemesFrom hraw
  case raws => exact hraws
  case nodup =>
    refine List.Nodup.of_map (Word.token ∘ Origin.word) ?_
    rw [← List.map_map, hwords]
    exact nodup_words htokens
  case demotes => exact hdemotes
  case lexed =>
    intro o ho
    have hmem : o.word.token ∈ (settleKeywords none raw).filter (·.kind != .blank) :=
      htoken ▸ List.mem_map_of_mem (f := Word.token ∘ Origin.word) ho
    exact lexed_of_tokenize htokens _ (List.mem_filter.1 hmem).1
  case safe =>
    rw [← htoken, List.isChain_map] at hsafe
    exact hsafe
  case order =>
    rw [List.map_map]
    exact hfst ▸ horder
  case settles =>
    intro z hz
    obtain ⟨p, hp, rfl⟩ := List.mem_map.1 hz
    exact hps p hp
  case chain =>
    rw [List.map_map]
    exact hsnd ▸ hsets.chain
  case blank =>
    intro z hz
    obtain ⟨p, hp, rfl⟩ := List.mem_map.1 hz
    exact hsets.blank p.2 (hsnd ▸ List.mem_map_of_mem hp)

end Sets

end SqlInlay.Sql
