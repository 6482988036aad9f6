import SqlInlay.Proofs.Sql.Rereading

/-!
# Laying out a layout

The layout of a query is a query with the same words (`tokenize_formatQuery`), so by
`formatQuery_twin_of_segment` it is laid out as the first one was if the two need spaces in the same
places.  Words have places, and those of a layout are others: whether one token touched another can
be told from their offsets only, and layout asks for it.  This module compares what touches in a
query with what touches in its layout.

**Touching.**  Whether a space is needed depends on the places of tokens for three neighbours only:
a parenthesis behind a name, a string behind a name and an opening bracket (`Trace.Joins`).

* `agrees_of_joins` — a recasting agrees if those touch where they did; of all others nothing has to
  be known.
* `Sited.touching_of_meets` — they cling to what they touch, and in the layout they touch nothing
  but what they touched in the query.
* `Sited.touching_iff`, `Sited.agrees` — so the words of a query and those of its layout agree.

**Plain words.**  What the query has to be is asked of neighbours (`Word.PlainBefore`): a dot
touches what is beside it, no two operators come together as another one, and no bracket touches a
keyword.  Such neighbours are safe (`isChain_safeBefore`), so the layout is read as the query was; a
dot that touches them cannot make them something else, or it would have done so in the query
(`isChain_dotSafe`).

**Signs** break the law.  Whether a plus or minus has an operand in front of it is not judged alike
by what measures a statement in one line and by what prints it on lines of its own: behind a
semicolon `- [b]` is measured and `-[b]` is printed, and the next layout measures a shorter line
(`not_formatQuery_idempotent`).  `hasStraySign` excludes just that.
-/

namespace SqlInlay.Sql

open SqlInlay.Text

/-! ## What touching decides -/

/-- Nothing but that it touches what was written before it keeps a token close.  For all other
neighbours the rule is one that a layout does not change. -/
structure Trace.Joins (τ : Trace) (u : Token) : Prop where
  opens : opensComment τ u = false
  left : hugsLeft u.kind = false
  right : hugsRight τ.kind = false
  unary : τ.unary = false
  binds : binds τ u = false
  touch : u.kind = .openParen ∧
      τ.kind ∈ [.identifier, .quotedIdentifier, .keyword .LEFT, .keyword .RIGHT] ∨
    u.kind = .string ∧ τ.kind = .identifier ∨ u.kind = .operator ∧ u.text = "[".toList

section Joins

variable {τ : Trace} {u : Token} {f : Recasting} {all : List Stroke}

lemma Trace.Joins.needsSpace (h : τ.Joins u) :
    needsSpace τ u = (τ.stop != some u.offset) := by
  rw [Sql.needsSpace, h.opens, h.left, h.right, h.unary, h.binds]
  simp only [Bool.false_eq_true, if_false, Bool.or_false, apartUnlessTouching]
  rcases h.touch with ⟨hu, hτ⟩ | ⟨hu, hτ⟩ | ⟨hu, htext⟩
  · simp only [List.mem_cons, List.not_mem_nil, or_false] at hτ
    rcases hτ with hτ | hτ | hτ | hτ <;> simp [hu, hτ]
  · simp [hu, hτ]
  · simp [hu, htext]

/-- Where touching does not decide, a token is kept apart or not wherever it stands.  Of the rules
about spaces only the last one looks at positions, and it does so for an opening parenthesis, a
string and a bracket. -/
lemma needsSpace_eq_of_not_joins (h : ¬ τ.Joins u) (stop : Option Nat) :
    needsSpace { τ with stop := stop } u = needsSpace τ u := by
  have hopens : opensComment { τ with stop := stop } u = opensComment τ u := rfl
  have hbinds : binds { τ with stop := stop } u = binds τ u := rfl
  simp only [needsSpace, hopens, hbinds]
  split
  · rfl
  rename_i hopens
  split
  · rfl
  rename_i hleft
  split
  · rfl
  rename_i hright
  split
  · rfl
  rename_i hbinds
  rw [Bool.or_eq_true, not_or] at hright
  simp only [Bool.not_eq_true] at hopens hleft hright hbinds
  -- what is left looks at touching in three cases only
  have htouch : ¬ _ := fun htouch => h ⟨hopens, hleft, hright.1, hright.2, hbinds, htouch⟩
  simp only [not_or, not_and, List.mem_cons, List.not_mem_nil, or_false] at htouch
  obtain ⟨hparen, hstring, hbracket⟩ := htouch
  unfold apartUnlessTouching
  cases hu : u.kind with
  | openParen =>
    obtain ⟨hname, hquoted, hleft, hright⟩ := hparen hu
    split <;> simp_all
  | string => simp only [if_neg (hstring hu)]
  | operator => simp only [if_neg (hbracket hu)]
  | _ => rfl

/-- A recasting agrees if tokens touch that need to. -/
lemma agrees_of_joins (h : ∀ es s t u rest unary, all = es ++ s :: .write u :: rest →
      (s = .write t ∨ s = .glue t) → (∀ v, s = .write v → Signs es v unary) →
      (s.trace unary).Joins u → ((t.stop = u.offset) ↔ ((f t).stop = (f u).offset))) :
    Agrees f all := by
  refine agrees_of_touching fun es s t u rest unary hall hs hsigns => ?_
  by_cases hjoins : (s.trace unary).Joins u
  · exact .inl fun _ => h es s t u rest unary hall hs hsigns hjoins
  · right
    -- the second script reads the place of its token as the first one might
    let stop := if ((s.recast f).trace unary).stop = some (f u).offset then some u.offset else none
    have hstop : stop = some u.offset ↔ ((s.recast f).trace unary).stop = some (f u).offset := by
      simp [stop]
    have hsame : needsSpace { s.trace unary with stop := stop } u =
        needsSpace ((s.recast f).trace unary) (f u) :=
      f.needsSpace_eq u (by simp) (f.letters_trace unary s) (f.unary_trace unary s) fun _ => hstop
    exact (needsSpace_eq_of_not_joins hjoins stop).symm.trans hsame

end Joins

/-! ## Dots that touch -/

section Dots

variable {before : Option Char} {raw tokens : List Token}

/-- A keyword and a dot do not touch, nor do digits and a dot behind them.  A word that touches a
dot is read as a name, and digits in front of a dot take it along. -/
lemma dotSafe_of_scanned {t u : Token} {us : List Token} (h : Scanned before (t :: u :: us)) :
    t.DotSafe u := by
  obtain ⟨⟨c, v, htext, hlexeme⟩, ⟨d, w, htext', hlexeme'⟩, -⟩ := h
  have hbehind : u.kind = .dot → '.' ∈ ((u :: us).flatMap Token.text).head? := fun hdot => by
    rw [hdot] at hlexeme'
    obtain ⟨rfl, rfl⟩ := hlexeme'.eq_dot
    rw [List.flatMap_cons, htext']
    rfl
  constructor
  case keyword_dot =>
    intro hkeyword hdot
    obtain ⟨word, hword⟩ := isKeyword_iff.1 hkeyword
    have hread := (hlexeme.isWordText (by rw [hword]; rfl)).2.1
    exact (wordKind_eq_keyword_iff.1 (hread.symm.trans hword)).2.1 (hbehind hdot)
  case dot_keyword =>
    intro hdot
    by_contra hkeyword
    obtain ⟨word, hword⟩ := isKeyword_iff.1 (by simpa using hkeyword)
    have hread := (hlexeme'.isWordText (by rw [hword]; rfl)).2.1
    rw [hdot] at hlexeme
    obtain ⟨rfl, rfl⟩ := hlexeme.eq_dot
    exact (wordKind_eq_keyword_iff.1 (hread.symm.trans hword)).1 (by rw [htext]; rfl)
  case digits_dot =>
    intro hnumber hdigits hdot
    rw [hnumber] at hlexeme
    rw [htext, List.all_cons, Bool.and_eq_true, List.all_eq_true] at hdigits
    exact hlexeme.not_dot_of_digits hdigits.2 (hbehind hdot)

lemma isChain_dotSafe (h : Scanned before raw) : raw.IsChain Token.DotSafe := by
  induction raw generalizing before with
  | nil => exact .nil
  | cons t ts ih =>
    cases ts with
    | nil => exact .singleton t
    | cons u us => exact .cons_cons (dotSafe_of_scanned h) (ih h.2)

/-- Demoting keywords makes no dot unsafe. -/
lemma Token.DotSafe.of_demotes {t u t' u' : Token} (h : t.DotSafe u) (ht : t.Demotes t')
    (hu : u.Demotes u') : t'.DotSafe u' := by
  have hkeyword : ∀ {v v' : Token}, v.Demotes v' → v'.isKeyword = true → v.isKeyword = true := by
    intro v v' hv hkeyword
    rcases hv.kind with hk | ⟨hk, -⟩
    · rwa [Token.isKeyword, hk] at hkeyword
    · exact hk
  have hkind : ∀ {v v' : Token}, v.Demotes v' → v'.kind ≠ .identifier → v.kind = v'.kind :=
    fun hv hne => (hv.kind.resolve_right fun hdemoted => hne hdemoted.2).symm
  constructor
  case keyword_dot =>
    exact fun ht' hdot => h.keyword_dot (hkeyword ht ht') ((hkind hu (by simp [hdot])).trans hdot)
  case dot_keyword =>
    intro hdot
    by_contra hu'
    have hsafe := h.dot_keyword ((hkind ht (by simp [hdot])).trans hdot)
    rw [hkeyword hu (by simpa using hu')] at hsafe
    cases hsafe
  case digits_dot =>
    exact fun hnumber hdigits hdot =>
      h.digits_dot ((hkind ht (by simp [hnumber])).trans hnumber) (ht.text ▸ hdigits)
        ((hkind hu (by simp [hdot])).trans hdot)

/-- What holds of neighbours holds of their counterparts. -/
lemma isChain_of_forall₂ {α β : Type} {R : α → β → Prop} {S : α → α → Prop} {T : β → β → Prop}
    (hT : ∀ a b c d, R a c → R b d → S a b → T c d) {l : List α} {m : List β}
    (h : List.Forall₂ R l m) (hl : l.IsChain S) : m.IsChain T := by
  induction h with
  | nil => exact .nil
  | cons hac hrest ih =>
    cases hrest with
    | nil => exact .singleton _
    | cons hbd _ => exact .cons_cons (hT _ _ _ _ hac hbd hl.rel) (ih hl.tail)

lemma isChain_cons_wordsOf_of_touching {R : Token → Token → Prop} {ts : List Token} {a : Word}
    {fresh touching : Bool} (h : ts.IsChain R)
    (ha : touching = true → ∀ t ∈ ts.head?, R a.token t) :
    (a :: wordsOf fresh touching ts).IsChain fun a b => b.touching = true → R a.token b.token := by
  induction ts generalizing a fresh touching with
  | nil => exact .singleton a
  | cons t ts ih =>
    simp only [wordsOf]
    split
    · exact ih h.tail fun htouching => absurd htouching Bool.false_ne_true
    · refine .cons_cons (fun htouching => ha htouching t rfl) (ih h.tail fun _ u hu => ?_)
      exact (List.isChain_cons.1 h).1 u hu

/-- What holds of neighbouring tokens holds of words that touch. -/
lemma isChain_wordsOf_of_touching {R : Token → Token → Prop} {ts : List Token}
    (h : ts.IsChain R) (fresh touching : Bool) :
    (wordsOf fresh touching ts).IsChain fun a b => b.touching = true → R a.token b.token := by
  induction ts generalizing fresh touching with
  | nil => exact .nil
  | cons t ts ih =>
    simp only [wordsOf]
    split
    · exact ih h.tail _ _
    · exact isChain_cons_wordsOf_of_touching h.tail fun _ u hu => (List.isChain_cons.1 h).1 u hu

end Dots

/-! ## Queries that stay as they are laid out -/

/-- Neighbours that a layout does not change for the next one: a dot touches what is beside it, no
two operators come together as another one, and no bracket touches a keyword in front of it. -/
structure Word.PlainBefore (a b : Word) : Prop where
  dot : a.token.kind = .dot ∨ b.token.kind = .dot → b.touching = true
  minus : a.token.text = "-".toList → '>' ∉ b.token.text.head?
  colon : a.token.text = ":".toList → b.token.text ≠ "::".toList
  bracket : a.token.isKeyword = true → b.token.text = "[".toList → b.touching = false

instance (a b : Word) : Decidable (a.PlainBefore b) :=
  decidable_of_iff ((a.token.kind = .dot ∨ b.token.kind = .dot → b.touching = true) ∧
    (a.token.text = "-".toList → '>' ∉ b.token.text.head?) ∧
    (a.token.text = ":".toList → b.token.text ≠ "::".toList) ∧
    (a.token.isKeyword = true → b.token.text = "[".toList → b.touching = false))
    ⟨fun ⟨h₁, h₂, h₃, h₄⟩ => ⟨h₁, h₂, h₃, h₄⟩, fun ⟨h₁, h₂, h₃, h₄⟩ => ⟨h₁, h₂, h₃, h₄⟩⟩

/-- Somewhere a sign behind a semicolon has a bracket behind it that it does not touch.  Such a sign
is measured as one between two operands, and printed as one in front of an operand; so the bracket
touches it in the layout, and is measured otherwise the next time. -/
def hasStraySign : List Word → Bool
  | a :: b :: c :: ws =>
    a.token.kind == .semicolon && b.token.isSign && c.token.text == "[" && !c.touching ||
      hasStraySign (b :: c :: ws)
  | _ => false

lemma hasStraySign_tail {x : Word} {ws : List Word} (h : hasStraySign (x :: ws) = false) :
    hasStraySign ws = false := by
  match ws, h with
  | [], _ => rfl
  | [_], _ => rfl
  | _ :: _ :: _, h => exact (Bool.or_eq_false_iff.1 h).2

lemma touching_of_hasStraySign {front back : List Word} {a b c : Word}
    (h : hasStraySign (front ++ a :: b :: c :: back) = false) (ha : a.token.kind = .semicolon)
    (hb : b.token.isSign = true) (hc : c.token.text = "[".toList) : c.touching = true := by
  induction front with
  | nil =>
    have hstray := (Bool.or_eq_false_iff.1 h).1
    simpa [ha, hb, hc] using hstray
  | cons x front ih => exact ih (hasStraySign_tail h)

section Plain

variable {query : Text} {raw tokens : List Token}

/-- Plain neighbours are safe. -/
lemma isChain_safeBefore (h : tokenize query = .ok tokens)
    (hplain : (words tokens).IsChain Word.PlainBefore) :
    (tokens.filter (·.kind != .blank)).IsChain Token.SafeBefore := by
  obtain ⟨raw, hraw, rfl⟩ := exists_of_tokenize h
  have hdots : (settleKeywords none raw).IsChain Token.DotSafe :=
    isChain_of_forall₂ (fun _ _ _ _ ht hu hsafe => hsafe.of_demotes ht hu)
      (demotes_settleKeywords none raw) (isChain_dotSafe (scanned_of_lexemesFrom hraw))
  have htouching := isChain_wordsOf_of_touching hdots true false
  rw [← map_token_wordsOf true false, List.isChain_map]
  refine List.isChain_iff_forall_rel_of_append_cons_cons.2 fun {a b _ _} hsplit => ?_
  have hab := List.isChain_iff_forall_rel_of_append_cons_cons.1 hplain hsplit
  have hsafe := List.isChain_iff_forall_rel_of_append_cons_cons.1 htouching hsplit
  refine ⟨?_, hab.minus, hab.colon⟩
  by_cases hb : b.touching = true
  · exact hsafe hb
  · have hdot := mt hab.dot hb
    rw [not_or] at hdot
    exact ⟨fun _ => hdot.2, fun ha => absurd ha hdot.1, fun _ _ => hdot.2⟩

end Plain

/-! ## The next layout -/

namespace Stroke

variable {all es : List Stroke} {s r : Stroke} {t u : Token} {unary : Bool}

/-- Tokens that have to touch, and do, cling to each other.  Each field of clinging is a way in
which the layout could come to part them: a space, a line break behind one or in front of the other,
and a comment that is hoisted in between. -/
lemma clings_of_joins (hs : s = write t ∨ s = glue t) (hproper : s.Proper)
    (hjoins : (s.trace unary).Joins u) (htouch : t.stop = u.offset)
    (hbracket : t.isKeyword = true → u.text ≠ "[".toList) (hfree : Free all) :
    s.Clings all (write u) := by
  have hkind : u.kind = .openParen ∨ u.kind = .string ∨ u.kind = .operator := by
    rcases hjoins.touch with h | h | h
    · exact .inl h.1
    · exact .inr (.inl h.1)
    · exact .inr (.inr h.1)
  constructor
  case written =>
    have hstop : (s.trace unary).stop = some u.offset := by
      rcases hs with rfl | rfl <;> simp [trace, Trace.after, htouch]
    have hclose : needsSpace (s.trace unary) u = false := by
      rw [hjoins.needsSpace, hstop]
      simp
    refine ⟨u, rfl, fun unary' _ => ?_⟩
    rcases hs with rfl | rfl
    · obtain rfl : unary = false := hjoins.unary
      cases unary' with
      | false => exact hclose
      | true =>
        have hopens : opensComment ((write t).trace true) u = false := hjoins.opens
        simp only [needsSpace, hopens, hjoins.left, Bool.false_eq_true, if_false]
        simp [trace]
    · exact hclose
  case stays => rcases hkind with h | h | h <;> simp [Stroke.kind, h, Kind.movesUp]
  case light =>
    rcases hs with rfl | rfl
    · intro hkind
      simp only [Stroke.kind] at hkind
      simp [Proper, Token.isComment, hkind] at hproper
    · rcases hproper with h | h <;> simp [Stroke.kind, h]
  case behind =>
    have hright : t.kind ≠ .openParen := fun hkind => by
      have hright := hjoins.right
      rcases hs with rfl | rfl <;> simp [Stroke.kind, hkind, hugsRight] at hright
    rcases hs with rfl | rfl
    · have hclause : t.isClauseWord = false := by
        rcases hjoins.touch with ⟨-, hkind⟩ | ⟨-, hkind⟩ | ⟨-, hopening⟩
        · simp only [trace, List.mem_cons, List.not_mem_nil, or_false] at hkind
          rcases hkind with h | h | h | h <;>
            simp [Token.isClauseWord, Token.spellsAny, Token.spells, h]
        · simp only [trace] at hkind
          simp [Token.isClauseWord, Token.spellsAny, Token.spells, hkind]
        · by_contra hclause
          obtain ⟨word, hword⟩ := exists_keyword_of_isClauseWord (by simpa using hclause)
          exact hbracket (isKeyword_iff.2 ⟨word, hword⟩) hopening
      simp [allowsBehind, hright, hclause]
    · simp [allowsBehind, hright]
  case before => rcases hkind with h | h | h <;> simp [allowsBefore, h, Token.isKeyword]
  case free => exact fun _ => hfree

/-- A sign behind a stroke where a line may break reads as a sign on one line, too, but behind a
semicolon. -/
lemma kind_of_allowsBehind (hr : r.allowsBehind = true) (hmark : ∀ kind text, r = mark kind text →
      kind = .comma ∨ kind = .semicolon) (hcomment : ∀ c, r ≠ comment c)
    (hsign : t.isSign = true) (hunary : isUnary (some (.remark r.kind)) t = false) :
    r.kind = .semicolon := by
  have hasks : r.kind.asksForOperand = false := by
    rw [isUnary_eq, hsign, Bool.true_and] at hunary
    exact hunary
  cases r with
  | write w =>
    rw [allowsBehind, Bool.or_eq_true, beq_iff_eq] at hr
    rcases hr with hr | hr
    · rw [Stroke.kind, hr] at hasks
      cases hasks
    · cases hasks.symm.trans (asksForOperand_of_isClauseWord hr)
  | glue w =>
    rw [Stroke.kind, (beq_iff_eq.1 hr : w.kind = .openParen)] at hasks
    cases hasks
  | mark kind text =>
    rcases hmark kind text rfl with rfl | rfl
    · cases hasks
    · rfl
  | comment c => exact absurd rfl (hcomment c)

end Stroke

namespace Sited

variable {raw : List Token} {origins : List Origin} {all es rest : List Stroke} {sites : List Site}
  {f : Recasting} {vs : List Word}

/-- Neighbouring strokes of a layout without comments have neighbouring sites. -/
lemma exists_sites_of_strokes {s r : Stroke} (hall : sites.map (Slot.stroke ∘ Site.slot) = all)
    (hsplit : all = es ++ s :: r :: rest) :
    ∃ front z z' back, sites = front ++ z :: z' :: back ∧
      front.map (Slot.stroke ∘ Site.slot) = es ∧ z.slot.stroke = s ∧ z'.slot.stroke = r := by
  obtain ⟨front, back, rfl, hfront, hback⟩ := List.map_eq_append_iff.1 (hall.trans hsplit)
  obtain ⟨z, back, rfl, hz, hback⟩ := List.map_eq_cons_iff.1 hback
  obtain ⟨z', back, rfl, hz', -⟩ := List.map_eq_cons_iff.1 hback
  exact ⟨front, z, z', back, rfl, hfront, hz, hz'⟩

/-- The query of a layout that stays as it is laid out: there are no comments, and the words are
plain. -/
structure Plain (all : List Stroke) (sites : List Site) : Prop where
  strokes : sites.map (Slot.stroke ∘ Site.slot) = all
  free : Stroke.Free all
  nodup : (sites.map Site.token).Nodup
  neighbours : (sites.map (Origin.word ∘ Site.origin)).IsChain Word.Neighbours
  plain : (sites.map (Origin.word ∘ Site.origin)).IsChain Word.PlainBefore
  stray : hasStraySign (sites.map (Origin.word ∘ Site.origin)) = false

variable {front back : List Site} {z z' : Site} {s : Stroke} {t u : Token} {unary : Bool}

/-- Strokes stand in one place. -/
lemma front_unique (h : Sited raw origins all sites) (hplain : Plain all sites)
    (hsites : sites = front ++ z :: z' :: back) (hz' : z'.slot.stroke = .write u)
    (hsplit : all = es ++ s :: .write u :: rest) :
    front.map (Slot.stroke ∘ Site.slot) = es := by
  obtain ⟨front', y, y', back', hsites', rfl, -, hy'⟩ :=
    exists_sites_of_strokes hplain.strokes hsplit
  have htoken : ∀ x ∈ sites, x.slot.stroke = .write u → x.token = u := fun x hx hxu =>
    Word.token_eq_of_settles (hxu ▸ h.settles x hx) (.inl rfl)
  have hmem : z' ∈ sites := by simp [hsites]
  have hmem' : y' ∈ sites := by simp [hsites']
  have hsame : z' = y' := List.inj_on_of_nodup_map hplain.nodup hmem hmem'
    ((htoken z' hmem hz').trans (htoken y' hmem' hy').symm)
  have hsplit : sites = (front ++ [z]) ++ z' :: back := by simp [hsites]
  have hsplit' : sites = (front' ++ [y]) ++ y' :: back' := by simp [hsites']
  obtain ⟨hfront, -, -⟩ := h.eq_of_origin_eq hsplit hsplit' (congrArg Site.origin hsame)
  rw [(List.append_inj' hfront rfl).1]

/-- A sign that starts a line for its own sake stands behind a semicolon; a bracket behind it
touches it in the query. -/
lemma touching_of_signals (h : Sited raw origins all sites) (hplain : Plain all sites)
    (hsites : sites = front ++ z :: z' :: back) (hz : z.slot.stroke = .write t)
    (hz' : z'.slot.stroke = .write u) (hbracket : u.text = "[".toList)
    (hsignals : (Stroke.write t).Signals (front.map (Slot.stroke ∘ Site.slot)))
    (hsigns : Signs (front.map (Slot.stroke ∘ Site.slot)) t false) :
    z'.origin.word.touching = true := by
  have hmem : z ∈ sites := by simp [hsites]
  have hmem' : z' ∈ sites := by simp [hsites]
  obtain rfl : z.token = t := Word.token_eq_of_settles (hz ▸ h.settles z hmem) (.inl rfl)
  obtain rfl : z'.token = u := Word.token_eq_of_settles (hz' ▸ h.settles z' hmem') (.inl rfl)
  obtain ⟨hsign, hstart⟩ := hsignals
  replace hsign : z.token.isSign = true := hsign
  rcases hsigns with hnone | ⟨r, hr, hunary⟩
  · have hasks : isUnary none z.token = true := by
      rw [Token.isSign] at hsign
      rw [isUnary, hsign]
      rfl
    rw [hasks] at hnone
    cases hnone
  have hfree : Stroke.Free (front.map (Slot.stroke ∘ Site.slot)) := by
    have hall := hplain.free
    rw [← hplain.strokes, hsites, List.map_append] at hall
    exact hall.of_append
  rcases List.eq_nil_or_concat front with rfl | ⟨front, y, rfl⟩
  · cases hr
  rw [List.concat_eq_append] at *
  have hmemy : y ∈ sites := by simp [hsites]
  obtain rfl : y.slot.stroke = r := by simpa using hr
  have hbehind : y.slot.stroke.allowsBehind = true := by
    rcases hstart with hstarts | hasks
    · rcases hstarts _ hr with hbehind | hbefore | ⟨-, hnotes⟩
      · exact hbehind
      · simp only [Stroke.allowsBefore, Bool.or_eq_true, beq_iff_eq] at hbefore
        simp only [Token.isSign, Bool.and_eq_true, beq_iff_eq] at hsign
        simp [hsign.1, Token.isKeyword] at hbefore
      · exact absurd hfree hnotes
    · rw [hasks _ hr z.token rfl] at hunary
      cases hunary
  have hkind := Stroke.kind_of_allowsBehind hbehind (fun kind text hmark => ?_)
    (fun c hc => hfree c (by simp [← hc])) hsign hunary.symm
  · have hstray := hplain.stray
    rw [hsites] at hstray
    simp only [List.map_append, List.map_cons, List.append_assoc, List.singleton_append] at hstray
    exact touching_of_hasStraySign hstray ((h.kind_stroke hmemy).symm.trans hkind) hsign hbracket
  · have hsettles := h.settles y hmemy
    rw [hmark] at hsettles
    unfold Word.stroke at hsettles
    split at hsettles
    · cases hsettles
    · cases hsettles with
      | mark v hv => exact hv

/-- Tokens that have to touch, and do so in the layout, do so in the query.  Whether the layout puts
a space between them depends on nothing but whether they touch in the query.  Where it reads a sign
as unary that the query does not, there is no space either way, but then the second token is a
bracket and it touches the sign. -/
lemma touching_of_meets (h : Sited raw origins all sites) (hplain : Plain all sites)
    (hsites : sites = front ++ z :: z' :: back) (hz : z.slot.stroke = s)
    (hz' : z'.slot.stroke = .write u) (hs : s = .write t ∨ s = .glue t)
    (hsigns : ∀ v, s = .write v → Signs (front.map (Slot.stroke ∘ Site.slot)) v unary)
    (hjoins : (s.trace unary).Joins u) (hmeets : s.Meets all (.write u))
    (hstop : z'.origin.word.touching = true ↔ t.stop = u.offset) :
    z'.origin.word.touching = true := by
  rcases hmeets with hmoves | ⟨v, hv⟩ | ⟨v, es, rest, τ, hv, hall, htraces, hspace⟩
  · rcases hjoins.touch with h | h | h <;> simp [Stroke.kind, h.1, Kind.movesUp] at hmoves
  · cases hv
  obtain rfl := Stroke.write.inj hv
  have hes := h.front_unique hplain hsites hz' hall
  rcases htraces with ⟨unary', hsignals, rfl⟩ | ⟨-, hfree, -⟩
  · by_cases hsame : s.trace unary' = s.trace unary
    · have htouch : (s.trace unary).stop = some u.offset := by
        rw [hsame, hjoins.needsSpace] at hspace
        simpa using hspace
      refine hstop.2 ?_
      rcases hs with rfl | rfl <;> simpa [Stroke.trace, Trace.after] using htouch
    · rcases hs with rfl | rfl
      · -- the layout reads the sign as unary
        obtain rfl : unary = false := hjoins.unary
        obtain rfl : unary' = true := by
          cases unary' with
          | false => exact absurd rfl hsame
          | true => rfl
        have hsignals := hsignals rfl
        have hsign := hsignals.1
        refine h.touching_of_signals hplain hsites hz hz' ?_ (hes ▸ hsignals) (hsigns t rfl)
        simp only [Stroke.isSign, Stroke.kind, Bool.and_eq_true, beq_iff_eq] at hsign
        rcases hjoins.touch with ⟨-, hkind⟩ | ⟨-, hkind⟩ | ⟨-, hbracket⟩
        · simp [Stroke.trace, hsign.1] at hkind
        · simp [Stroke.trace, hsign.1] at hkind
        · exact hbracket
      · exact absurd rfl hsame
  · exact absurd (Stroke.Free.of_append (hall ▸ hplain.free)) hfree

/-- Tokens that have to touch do so in the query if and only if they do in the layout.  The
footprint of the query says which tokens touch in it, so this is what makes the footprint of the
layout the same. -/
lemma touching_iff (h : Sited raw origins all sites) (hplain : Plain all sites)
    (hsites : sites = front ++ z :: z' :: back) (hz : z.slot.stroke = s)
    (hz' : z'.slot.stroke = .write u) (hs : s = .write t ∨ s = .glue t)
    (hsigns : ∀ v, s = .write v → Signs (front.map (Slot.stroke ∘ Site.slot)) v unary)
    (hjoins : (s.trace unary).Joins u) :
    z'.origin.word.touching = true ↔ z'.slot.space = [] := by
  have hmem : z ∈ sites := by simp [hsites]
  have hmem' : z' ∈ sites := by simp [hsites]
  obtain rfl : z.token = t := Word.token_eq_of_settles (hz ▸ h.settles z hmem) hs
  obtain rfl : z'.token = u := Word.token_eq_of_settles (hz' ▸ h.settles z' hmem') (.inl rfl)
  have hwords : sites.map (Origin.word ∘ Site.origin) = front.map (Origin.word ∘ Site.origin) ++
      z.origin.word :: z'.origin.word :: back.map (Origin.word ∘ Site.origin) := by
    simp [hsites]
  have hneighbours : Word.Neighbours z.origin.word z'.origin.word := by
    have hchain := hplain.neighbours
    rw [hwords] at hchain
    exact hchain.right_of_append.rel
  constructor
  · intro htouching
    by_contra hspace
    have hbracket : z.token.isKeyword = true → z'.token.text ≠ "[".toList :=
      fun hkeyword htext => by
        have hchain := hplain.plain
        rw [hwords] at hchain
        have hapart := hchain.right_of_append.rel.bracket hkeyword htext
        simp [htouching] at hapart
    refine (h.follows hsites).parts hspace ?_
    rw [hz, hz']
    exact Stroke.clings_of_joins hs (hz ▸ h.proper hmem) hjoins (hneighbours.1 htouching) hbracket
      hplain.free
  · intro hspace
    have hmeets := (h.follows hsites).meets hspace
    rw [hz, hz'] at hmeets
    exact h.touching_of_meets hplain hsites hz hz' hs hsigns hjoins hmeets hneighbours

/-- **Recasting the words of a query to those of its layout agrees.**  In the layout, words touch
where no space was put between them, so a space is needed there if and only if there was one
before. -/
lemma agrees (h : Sited raw origins all sites) (hplain : Plain all sites)
    (hvs : vs.IsChain Word.Neighbours)
    (hf : List.Forall₂ (fun z v => f z.token = v.token ∧ (v.touching = true ↔ z.slot.space = []))
      sites vs) : Agrees f all := by
  refine agrees_of_joins fun es s t u rest unary hsplit hs hsigns hjoins => ?_
  obtain ⟨front, z, z', back, hsites, hfront, hz, hz'⟩ :=
    exists_sites_of_strokes hplain.strokes hsplit
  subst hfront
  have htouching := h.touching_iff hplain hsites hz hz' hs hsigns hjoins
  have hmem : z ∈ sites := by simp [hsites]
  have hmem' : z' ∈ sites := by simp [hsites]
  obtain rfl : z.token = t := Word.token_eq_of_settles (hz ▸ h.settles z hmem) hs
  obtain rfl : z'.token = u := Word.token_eq_of_settles (hz' ▸ h.settles z' hmem') (.inl rfl)
  obtain ⟨front', back', v, v', rfl, -, hv, hv'⟩ := exists_neighbours_of_forall₂ hf.flip hsites
  have hneighbours : Word.Neighbours z.origin.word z'.origin.word := by
    have hchain := hplain.neighbours
    rw [hsites, List.map_append, List.map_cons, List.map_cons] at hchain
    exact hchain.right_of_append.rel
  have hneighbours' : Word.Neighbours v v' := hvs.right_of_append.rel
  rw [hv.1, hv'.1]
  exact hneighbours.symm.trans (htouching.trans (hv'.2.symm.trans hneighbours'))

end Sited

/-! ## The words of a layout -/

section Shows

variable {case : KeywordCase} {t u : Token} {text : Text} {word : Keyword}

/-- A word in its case is in its case. -/
lemma apply_apply (h : Keyword.ofWord? text = some word) :
    case.apply (case.apply text) = case.apply text := by
  by_cases hcase : case = .preserve
  · subst hcase
    rfl
  · have happly : Keyword.ofWord? (case.apply text) = some word := by
      rw [← ofWord?_asciiUpper, asciiUpper_apply h, ofWord?_asciiUpper, h]
    rw [← apply_asciiUpper happly hcase, asciiUpper_apply h, apply_asciiUpper h hcase]

/-- What a layout shows of code: a keyword in its case, or the text as it is. -/
lemma Token.Shows.text_cases (h : t.Shows case u) (ht : t.Lexed) (hcode : t.isComment = false) :
    (∃ word, t.kind = .keyword word ∧ Keyword.ofWord? t.text = some word ∧
      u.text = case.apply t.text) ∨ t.isKeyword = false ∧ u.text = t.text := by
  have htext := h.text
  by_cases hkeyword : t.isKeyword = true
  · obtain ⟨word, hkind, hword⟩ := exists_word_of_isKeyword ht hkeyword
    rw [hkind, written] at htext
    exact .inl ⟨word, hkind, hword, htext⟩
  · rw [Bool.not_eq_true] at hkeyword
    refine .inr ⟨hkeyword, htext.trans ?_⟩
    unfold written
    split
    · rename_i word hword
      simp [Token.isKeyword, hword] at hkeyword
    · rename_i hcomment
      simp [Token.isComment, hcomment] at hcode
    · rfl

/-- What a layout shows of code may stand in its place. -/
lemma Token.Shows.resembles (h : t.Shows case u) (ht : t.Lexed) (hcode : t.isComment = false) :
    t.resembles u = true := by
  rcases h.text_cases ht hcode with ⟨word, hkind, hword, htext⟩ | ⟨-, htext⟩
  · exact Token.resembles_iff.2 ⟨h.kind, by rw [htext, asciiUpper_apply hword],
      fun hname => by simp [Token.isKeyword, hkind] at hname⟩
  · exact Token.resembles_iff.2 ⟨h.kind, by rw [htext], fun _ => htext⟩

/-- What a layout shows of code is spelled as the code is. -/
lemma Token.Shows.spelling (h : t.Shows case u) (ht : t.Lexed) (hcode : t.isComment = false) :
    Line.spelling case t = Line.spelling case u := by
  rcases h.text_cases ht hcode with ⟨word, hkind, hword, htext⟩ | ⟨-, htext⟩
  · rw [Line.spelling, Line.spelling, h.kind, hkind, htext, apply_apply hword]
  · rw [Line.spelling, Line.spelling, h.kind, htext]

end Shows

section Relaid

variable {raw : List Token} {origins : List Origin} {all : List Stroke} {sites : List Site}

/-- Where there are no comments, nothing moves. -/
lemma Hoisted.eq_of_light {α : Type} {kind : α → Kind} {l m : List α} (h : Hoisted kind l m)
    (hl : ∀ a ∈ l, kind a ≠ .lineComment) : m = l := by
  induction h with
  | refl => rfl
  | @step front back comment mark hprev hcomment _ ih =>
    refine absurd hcomment (hl comment (hprev.mem_iff.1 ?_))
    simp

/-- A layout without comments is read word by word.  The tokens are those of the query, settled
again, and each of them touches the one in front exactly where the layout has nothing in between. -/
lemma Sited.exists_words (h : Sited raw origins all sites) (case : KeywordCase)
    (hwords : origins.map Origin.word = words (settleKeywords none raw))
    (hcode : ∀ t ∈ settleKeywords none raw, t.isComment = false) :
    ∃ tokens, tokenize (Site.textOf case sites) = .ok tokens ∧
      List.Forall₂ (Token.Shows case) ((settleKeywords none raw).filter (·.kind != .blank))
        (tokens.filter (·.kind != .blank)) ∧
      List.Forall₂ (fun z v => v.touching = true ↔ z.slot.space = []) sites
        (wordsOf true true tokens) := by
  obtain ⟨raw', hraw', hreads⟩ := h.exists_tokenize case
  obtain ⟨tokens, htokens, hshows, hcomments⟩ := h.exists_reread case hwords
  obtain rfl := Except.ok.inj (htokens.symm.trans hraw')
  have hfilter : ∀ ts : List Token, (∀ t ∈ ts, t.isComment = false) →
      ts.filter (!·.isTrivia) = ts.filter (·.kind != .blank) := fun ts hts =>
    List.filter_congr fun t ht => by simp [Token.isTrivia, hts t ht, bne]
  have hcode' : ∀ t ∈ settleKeywords none raw', t.isComment = false := by
    rw [List.filter_eq_nil_iff.2 (by simpa using hcode), List.forall₂_nil_left_iff,
      List.filter_eq_nil_iff] at hcomments
    simpa using hcomments
  rw [hfilter _ hcode, hfilter _ hcode'] at hshows
  refine ⟨_, hraw', hshows, forall₂_trans (fun z w v hzw hwv => ?_) hreads
    (forall₂_wordsOf (demotes_settleKeywords none raw') (fun t u htu => ?_)
      (fun t u htu _ => htu.text) true true)⟩
  · rw [hwv.2.2]
    exact hzw.touching
  · rcases htu.kind with hkind | ⟨hkeyword, hkind⟩
    · rw [hkind]
    · obtain ⟨word, hword⟩ := isKeyword_iff.1 hkeyword
      simp [hkind, hword]

/-- The words of a layout without comments are those of its query, in the same order. -/
lemma Sited.map_word (h : Sited raw origins all sites)
    (hwords : origins.map Origin.word = words (settleKeywords none raw))
    (hcode : ∀ t ∈ settleKeywords none raw, t.isComment = false) :
    sites.map (Origin.word ∘ Site.origin) = words (settleKeywords none raw) := by
  rw [← List.map_map, h.order.eq_of_light, hwords]
  intro o ho hcomment
  have ho := hcode _ (of_mem_words (hwords ▸ List.mem_map_of_mem ho)).1
  replace hcomment : o.word.token.kind = .lineComment := hcomment
  simp [Token.isComment, hcomment] at ho

/-- The strokes of a query without comments are code. -/
lemma code_of_settled {tokens : List Token} (hcode : ∀ t ∈ tokens, t.isComment = false)
    (hsettled : Settled ((words tokens).map Word.stroke) all) :
    (∀ s ∈ all, s.kind ≠ .lineComment) ∧ Stroke.Free all := by
  constructor
  · intro s hs hcomment
    obtain ⟨w, hw, hws⟩ := exists_word_of_settled hsettled hs
    have hkind : w.token.kind = .lineComment := by
      rw [← w.kind_stroke, ← hws.kind_text.1, hcomment]
    have hcode := hcode _ (of_mem_words hw).1
    simp [Token.isComment, hkind] at hcode
  · intro c hc
    obtain ⟨w, hw, hws⟩ := exists_word_of_settled hsettled hc
    rw [Word.stroke, hcode _ (of_mem_words hw).1] at hws
    cases hws

/-- A query without comments whose words are plain. -/
lemma Sited.plain {query : Text} (h : Sited raw origins all sites)
    (htokens : tokenize query = .ok (settleKeywords none raw))
    (hwords : origins.map Origin.word = words (settleKeywords none raw))
    (hcode : ∀ t ∈ settleKeywords none raw, t.isComment = false)
    (hsettled : Settled ((words (settleKeywords none raw)).map Word.stroke) all)
    (horder : Hoisted Stroke.kind all ((sites.map Site.slot).map Slot.stroke))
    (hplain : (words (settleKeywords none raw)).IsChain Word.PlainBefore)
    (hstray : hasStraySign (words (settleKeywords none raw)) = false) : Sited.Plain all sites := by
  have hmap := h.map_word hwords hcode
  obtain ⟨hlight, hfree⟩ := code_of_settled hcode hsettled
  have hnodup := nodup_words htokens
  rw [← hmap, List.map_map] at hnodup
  rw [List.map_map] at horder
  exact ⟨horder.eq_of_light hlight, hfree, hnodup, hmap ▸ isChain_words htokens, hmap ▸ hplain,
    hmap ▸ hstray⟩

/-- The words of a layout without comments may stand in the place of those of its query, and they are
spelled the same. -/
lemma resemble_of_shows {case : KeywordCase} {tokens tokens' : List Token}
    (hlexed : ∀ t ∈ tokens, t.Lexed) (hcode : ∀ t ∈ tokens, t.isComment = false)
    (h : List.Forall₂ (Token.Shows case) (tokens.filter (·.kind != .blank))
      (tokens'.filter (·.kind != .blank))) :
    Resemble (words tokens) (words tokens') ∧
      List.Forall₂ (fun w v => Line.spelling case w.token = Line.spelling case v.token)
        (words tokens) (words tokens') := by
  rw [← map_token_wordsOf true false, ← map_token_wordsOf true false, List.forall₂_map_left_iff,
    List.forall₂_map_right_iff] at h
  have hboth := (List.forall₂_and_left _ _).2 ⟨fun _ hw => (of_mem_words hw).1, h⟩
  constructor
  · refine hboth.imp fun w v ⟨hw, hshows⟩ => ⟨hshows.resembles (hlexed _ hw) (hcode _ hw), ?_⟩
    intro hcomment
    simp [hcode _ hw] at hcomment
  · exact hboth.imp fun w v ⟨hw, hshows⟩ => hshows.spelling (hlexed _ hw) (hcode _ hw)

end Relaid

/-- **Laying out a layout again changes nothing**, if the query has no comments, its words are plain,
and no sign behind a semicolon stands apart from a bracket. -/
theorem formatQuery_idempotent {query : Text} {dialect : Dialect} {script : Script}
    {tokens : List Token} (style : Style) (hparse : parse query dialect = .ok script)
    (htokens : tokenize query = .ok tokens) (hcode : ∀ t ∈ tokens, t.isComment = false)
    (hplain : (words tokens).IsChain Word.PlainBefore)
    (hstray : hasStraySign (words tokens) = false) :
    ∃ out, formatQuery style dialect query = .ok out ∧ formatQuery style dialect out = .ok out := by
  obtain ⟨tokens₀, slots, htokens₀, hsettled, hsets⟩ := exists_sets_of_parse hparse style
  obtain rfl := Except.ok.inj (htokens.symm.trans htokens₀)
  have hsafe := isChain_safeBefore htokens hplain
  obtain ⟨raw, hraw, rfl⟩ := exists_of_tokenize htokens
  obtain ⟨origins, sites, hsited, hwords, rfl⟩ := exists_sited hraw hsettled hsets hsafe
  -- the layout has the same words, and they touch in it where nothing blank is put between them
  obtain ⟨tokens', htokens', hshows, htouching⟩ :=
    hsited.exists_words style.keywordCase hwords hcode
  rw [← hsited.flatMap_text, hsets.text] at htokens'
  obtain ⟨hresemble, hspelling⟩ := resemble_of_shows (lexed_of_tokenize htokens) hcode hshows
  have hsited' := hsited.plain htokens hwords hcode hsettled hsets.order hplain hstray
  have hformat : formatQuery style dialect query = .ok (Script.format style script) := by
    rw [formatQuery, hparse]
    rfl
  have hsegment : parse query dialect = segment dialect (settleKeywords none raw) := by
    rw [parse, htokens]
    rfl
  have htwin : SameOutcome (formatQuery style dialect query)
      (formatQuery style dialect (Script.format style script)) := by
    refine formatQuery_twin_of_segment style dialect htokens htokens' hresemble hspelling ?_
    intro script' hscript' _
    obtain rfl := Except.ok.inj (hparse.symm.trans (hsegment.trans hscript'))
    have hrecast := hresemble.recasting_eq (nodup_words htokens)
    generalize Recasting.ofWords _ (words tokens') = f at hrecast ⊢
    refine hsited.agrees hsited' (isChain_wordsOf (placed_of_tokenize htokens'))
      (forall₂_and ?_ htouching)
    -- the bits of the words differ from those that `words` starts with, but not the tokens
    rw [← hsited.map_word hwords hcode, List.forall₂_map_left_iff] at hrecast
    rw [← List.forall₂_map_right_iff (f := Word.token)] at hrecast ⊢
    rw [map_token_wordsOf, ← map_token_wordsOf true false]
    exact hrecast
  refine ⟨_, hformat, ?_⟩
  rw [hformat] at htwin
  generalize formatQuery style dialect (Script.format style script) = outcome at htwin ⊢
  cases htwin
  rfl

/-- A call, a dotted name and a sign behind a semicolon. -/
theorem formatQuery_idempotent_call :
    ∃ out, formatQuery {} .jpql "select f(a.b); - c from t" = .ok out ∧
      formatQuery {} .jpql out = .ok out := by
  have htokens : tokenize "select f(a.b); - c from t" =
      .ok [⟨.keyword .SELECT, "select", 0⟩, ⟨.blank, " ", 6⟩, ⟨.identifier, "f", 7⟩,
        ⟨.openParen, "(", 8⟩, ⟨.identifier, "a", 9⟩, ⟨.dot, ".", 10⟩, ⟨.identifier, "b", 11⟩,
        ⟨.closeParen, ")", 12⟩, ⟨.semicolon, ";", 13⟩, ⟨.blank, " ", 14⟩, ⟨.operator, "-", 15⟩,
        ⟨.blank, " ", 16⟩, ⟨.identifier, "c", 17⟩, ⟨.blank, " ", 18⟩, ⟨.keyword .FROM, "from", 19⟩,
        ⟨.blank, " ", 23⟩, ⟨.identifier, "t", 24⟩] := by decide +kernel
  have hok : (parse "select f(a.b); - c from t" .jpql).isOk = true := by decide +kernel
  cases hparse : parse "select f(a.b); - c from t" .jpql with
  | error f =>
    rw [hparse] at hok
    cases hok
  | ok script =>
    exact formatQuery_idempotent {} hparse htokens (by decide) (by decide) (by decide)

/-- A query of plain words without comments is laid out in one way, and its layout in another. -/
theorem not_formatQuery_idempotent :
    formatQuery { maxLineWidth := 29 } .jpql "where (x or (select a; - [b]))" =
      .ok "WHERE (\n    x\n    OR (\n        SELECT a;\n\n        -[b]\n    )\n)" ∧
    formatQuery { maxLineWidth := 29 } .jpql
        "WHERE (\n    x\n    OR (\n        SELECT a;\n\n        -[b]\n    )\n)" =
      .ok "WHERE (x OR (\n    SELECT a;\n\n    -[b]\n))" ∧
    (tokenize "where (x or (select a; - [b]))").map (fun ts =>
      ts.all (!·.isComment) && decide ((words ts).IsChain Word.PlainBefore)) = .ok true := by
  decide +kernel

end SqlInlay.Sql
