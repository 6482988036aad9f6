import SqlInlay.Proofs.Sql.Settling
import SqlInlay.Proofs.Sql.Sites

/-!
# A layout read again

What a layout shows is tokenized as the query was, with keywords in the case of the style.  The
tokens are found one after the other: each is a lexeme behind the text in front of it and in front
of the text behind it (`Sited.exists_lexeme_shown`), for the characters that could carry it on or
run into it are kept away, by blanks or by what `Stroke.Meets.clasps` allows to touch.

* `Sited.stops_behind` — what stands behind a site does not carry it on, for all kinds but words.
* `Sited.clear_behind` — behind a name, a number or a parameter comes neither a word nor a sign.
* `Sited.exists_scanned` — so the text of some sites is read site by site, from the first to the
  last.

**Words** are the delicate ones.  Whether a keyword is read depends on the dots beside it, and dots
come to touch in the layout.  `Token.SafeBefore` excludes a dot beside a keyword; that a name that
spells a keyword keeps its dot is `Sited.dot_beside_shown`.  Digits that are a name keep their dot
and their word (`Sited.number?_behind`).

**Settling.**  A keyword that was demoted in the query may be read as a name at once, for it shows
its text as it is.  `rereads_of_reads` says that settling then comes to the same kinds.

**The law** is `tokenize_formatQuery`.  Code and comments are compared apart, since hoisting moves
some of the one over the other and keeps the order of each (`Sited.forall₂_filter`).  Neighbours
that have to be excluded are those that stand apart in the query, may touch in a layout and then are
other tokens, such as `1 . 5` or `- >` (`not_tokenize_formatQuery`).
-/

namespace SqlInlay.Sql

open SqlInlay.Text

/-! ## What stands behind a site -/

/-- What some sites show, blanks included. -/
def Site.textOf (case : KeywordCase) (sites : List Site) : Text :=
  sites.flatMap fun z => z.slot.space ++ z.shown case

@[simp] lemma Site.textOf_cons (case : KeywordCase) (z : Site) (sites : List Site) :
    Site.textOf case (z :: sites) = z.slot.space ++ (z.shown case ++ Site.textOf case sites) := by
  simp [Site.textOf]

/-- A word is read from what a site shows: it touches what is in front of it if nothing blank is
there, and a keyword that was demoted may already be read as the name that it is. -/
structure Site.Reads (case : KeywordCase) (z : Site) (w : Word) : Prop where
  text : w.token.text = z.shown case
  kind : w.token.kind = z.raw.kind ∨
    z.raw.isKeyword = true ∧ z.token.kind = .identifier ∧ w.token.kind = .identifier
  touching : w.touching = true ↔ z.slot.space = []

section Behind

variable {kind : Kind} {text : Text} {d : Char}

/-- Marks, brackets and blanks carry nothing on. -/
lemma stops_mark (hd : d ∈ ['(', ')', ',', ';', '[', ']', ' ', '\n'])
    (hblank : kind ≠ .blank) (hcomment : kind = .lineComment → d = '\n') :
    stops kind text d = true := by
  have hword : isWordChar d = false := by
    simp only [List.mem_cons, List.not_mem_nil, or_false] at hd
    rcases hd with rfl | rfl | rfl | rfl | rfl | rfl | rfl | rfl <;> decide
  have hne : d ≠ '\'' ∧ d ≠ '"' ∧ d ≠ '.' ∧ d ≠ '+' ∧ d ≠ '-' ∧ d ≠ '#' := by
    simp only [List.mem_cons, List.not_mem_nil, or_false] at hd
    rcases hd with rfl | rfl | rfl | rfl | rfl | rfl | rfl | rfl <;> decide
  have hmarks : ['(', ')', ',', ';', '[', ']', ' ', '\n'] ⊆
      ['(', ')', ',', '.', ';', '[', ']', ' ', '\n'] := by decide
  cases kind with
  | operator => exact stopsOperator_mark text (hmarks hd)
  | lineComment => simp [stops, hcomment rfl]
  | blank => exact absurd rfl hblank
  | _ => simp [stops, hword, hne]

lemma stops_dot (hblank : kind ≠ .blank) (hcomment : kind ≠ .lineComment)
    (hdigits : kind = .number → text.all Char.isDigit = false) : stops kind text '.' = true := by
  have hword : isWordChar '.' = false := by decide
  cases kind with
  | operator => exact stopsOperator_mark text (by simp)
  | lineComment => exact absurd rfl hcomment
  | number => simp [stops, hword, hdigits rfl]
  | blank => exact absurd rfl hblank
  | _ => simp [stops, hword]

lemma stops_colon (hblank : kind ≠ .blank) (hcomment : kind ≠ .lineComment)
    (hcolon : kind = .operator → text ≠ ":".toList) : stops kind text ':' = true := by
  have hword : isWordChar ':' = false := by decide
  cases kind with
  | operator => exact stopsOperator_colon (hcolon rfl)
  | lineComment => exact absurd rfl hcomment
  | blank => exact absurd rfl hblank
  | _ => simp [stops, hword]

end Behind

/-- The kinds of words. -/
lemma eq_of_isWord {kind : Kind} (h : kind.isWord = true) :
    kind = .identifier ∨ ∃ word, kind = .keyword word := by
  cases kind with
  | identifier => exact .inl rfl
  | keyword word => exact .inr ⟨word, rfl⟩
  | _ => cases h

/-- A word is code. -/
lemma Token.code_of_isWord {t : Token} (h : t.kind.isWord = true) :
    t.isTrivia = false ∧ t.isComment = false := by
  rcases eq_of_isWord h with hk | ⟨word, hk⟩ <;> simp [Token.isTrivia, Token.isComment, hk]

namespace Sited

variable {raw : List Token} {origins : List Origin} {all : List Stroke} {sites : List Site}
  {front back : List Site} {z z' : Site} {case : KeywordCase} {d : Char}

/-- What some sites show starts with what the first one shows, or with a blank. -/
lemma head_textOf (h : Sited raw origins all sites) (hz : z ∈ sites)
    (hd : d ∈ (Site.textOf case (z :: back)).head?) :
    z.slot.space = [] ∧ d ∈ (z.shown case).head? ∨ d ∈ z.slot.space.head? := by
  have hne := (h.solid_shown hz case).ne_nil
  rw [Site.textOf_cons] at hd
  cases hspace : z.slot.space with
  | nil =>
    rw [hspace, List.nil_append, List.head?_append_of_ne_nil _ hne] at hd
    exact .inl ⟨rfl, hd⟩
  | cons c space =>
    rw [hspace] at hd
    exact .inr hd

/-- A site that touches the next one is not carried on by it.  The cases are the ways to touch: in
each of them either the first character of the next site carries nothing on, or the two kinds are
such that it does not carry on this one. -/
lemma stops_of_touches (h : Sited raw origins all sites)
    (hsites : sites = front ++ z :: z' :: back) (htouches : Touches z z' d)
    (hcomment : z.raw.kind ≠ .lineComment) : stops z.raw.kind (z.shown case) d = true := by
  have hz : z ∈ sites := by simp [hsites]
  have hz' : z' ∈ sites := by simp [hsites]
  have hblank := h.kind_raw_ne_blank hz
  have hmark : d ∈ ['(', ')', ',', ';', '[', ']', ' ', '\n'] →
      stops z.raw.kind (z.shown case) d = true := fun hd =>
    stops_mark hd hblank fun hc => absurd hc hcomment
  have hraw : ∀ kind, z.token.kind = kind → kind ≠ .identifier → z.raw.kind = kind :=
    fun kind hk hne => (h.kind_eq hz (hk ▸ hne)).trans hk
  have hshown : z.token.kind = .operator → z.shown case = z.raw.text := fun hk =>
    shown_eq (by simp [Token.isKeyword, hk]) (by simp [hk])
  cases htouches with
  | mark hpunctuation =>
    rcases of_punctuation? hpunctuation with
      ⟨rfl, -⟩ | ⟨rfl, -⟩ | ⟨rfl, -⟩ | ⟨rfl, hdot⟩ | ⟨rfl, -⟩
    case inr.inr.inr.inl =>
      refine stops_dot hblank hcomment fun hnumber => ?_
      have hkind := (h.kind_eq_of_raw hz (by simp [Token.isKeyword, hnumber])).trans hnumber
      have hsafe := h.safe_of_neighbours hsites (by simp [hkind])
        (by simp [hdot, Kind.stays, Kind.movesUp])
      rw [shown_eq (by simp [Token.isKeyword, hkind]) (by simp [hkind]), ← Bool.not_eq_true]
      intro hdigits
      exact hsafe.digits_dot hkind ((h.demotes_site hz).text ▸ hdigits) hdot
    all_goals exact hmark (by simp)
  | opening hkind =>
    rw [hraw _ hkind (by simp)]
    rfl
  | dot hkind =>
    rw [hraw _ hkind (by simp)]
    rfl
  | plus hkind htext =>
    rw [hraw _ hkind (by simp), hshown hkind, htext]
    exact stopsOperator_plus d
  | minus hkind htext hdash harrow =>
    rw [hraw _ hkind (by simp), hshown hkind, htext]
    exact stopsOperator_minus hdash harrow
  | bracket hd => exact hmark (by rcases hd with rfl | rfl <;> simp)
  | cast hd hkind hcolon =>
    subst hd
    refine stops_colon hblank hcomment fun hoperator => ?_
    rw [hshown (by rw [h.kind_eq_of_raw hz (by simp [Token.isKeyword, hoperator]), hoperator])]
    exact hcolon
  | index hkind htext =>
    rw [hraw _ hkind (by simp), hshown hkind]
    simp only [List.mem_cons, List.not_mem_nil, or_false] at htext
    rcases htext with htext | htext <;> rw [htext]
    · exact stopsOperator_cast d
    · exact stopsOperator_bracket d
  | string hd hkind =>
    subst hd
    have hword : isWordChar '\'' = false := by decide
    rcases (h.demotes_site hz).kind with hk | ⟨hk, -⟩
    · rw [← hk, hkind]
      simp [stops, hword]
    · obtain ⟨word, hk⟩ := isKeyword_iff.1 hk
      rw [hk]
      simp [stops, hword]

/-- **What stands behind a site** does not carry it on: the first character there ends the token of
the site, as the blanks or the next token did in the query. -/
lemma stops_behind (h : Sited raw origins all sites) (hsites : sites = front ++ z :: back)
    (hd : d ∈ (Site.textOf case back).head?) : stops z.raw.kind (z.shown case) d = true := by
  rcases back with _ | ⟨z', back⟩
  · cases hd
  have hz : z ∈ sites := by simp [hsites]
  have hz' : z' ∈ sites := by simp [hsites]
  have hcomment : z.raw.kind = .lineComment → ∃ rest, z'.slot.space = '\n' :: rest :=
    fun hcomment => (h.follows hsites).note ((h.kind_stroke hz).trans
      ((h.kind_eq_of_raw hz (by simp [Token.isKeyword, hcomment])).trans hcomment))
  rcases h.head_textOf hz' hd with ⟨hspace, hd⟩ | hd
  · refine h.stops_of_touches hsites (h.touches hsites hspace hd) fun hnote => ?_
    obtain ⟨rest, hrest⟩ := hcomment hnote
    simp [hspace] at hrest
  · have hblank := h.blank z' hz' d (List.mem_of_mem_head? hd)
    refine stops_mark (by rcases hblank with rfl | rfl <;> decide) (h.kind_raw_ne_blank hz)
      fun hnote => ?_
    obtain ⟨rest, hrest⟩ := hcomment hnote
    simpa [hrest, eq_comm] using hd

/-- Behind a name, a number or a parameter comes neither a word nor a sign.  Either there is a
space, or the next site touches this one, and only punctuation, a bracket, a cast or a string does
that behind a word. -/
lemma clear_behind (h : Sited raw origins all sites) (hsites : sites = front ++ z :: back)
    (hkind : z.raw.kind.isWord = true ∨ z.raw.kind = .number ∨ z.raw.kind = .parameter)
    (hd : d ∈ (Site.textOf case back).head?) : isWordChar d = false ∧ d ≠ '+' ∧ d ≠ '-' := by
  rcases back with _ | ⟨z', back⟩
  · cases hd
  have hz : z ∈ sites := by simp [hsites]
  have hz' : z' ∈ sites := by simp [hsites]
  rcases h.head_textOf hz' hd with ⟨hspace, hd⟩ | hd
  · have hne : ∀ kind ∈ [Kind.openParen, .dot, .operator], z.token.kind ≠ kind := by
      rintro kind hmem rfl
      have hraw := h.kind_eq hz fun hk => by simp [hk] at hmem
      rw [← hraw] at hmem
      simp only [List.mem_cons, List.not_mem_nil, or_false] at hmem
      rcases hmem with hk | hk | hk <;> simp [hk, Kind.isWord] at hkind
    cases h.touches hsites hspace hd with
    | mark hpunctuation =>
      rcases of_punctuation? hpunctuation with
        ⟨rfl, -⟩ | ⟨rfl, -⟩ | ⟨rfl, -⟩ | ⟨rfl, -⟩ | ⟨rfl, -⟩ <;> decide
    | opening hk => exact absurd hk (hne _ (by simp))
    | dot hk => exact absurd hk (hne _ (by simp))
    | plus hk => exact absurd hk (hne _ (by simp))
    | minus hk => exact absurd hk (hne _ (by simp))
    | bracket hd => rcases hd with rfl | rfl <;> decide
    | cast hd => subst hd; decide
    | index hk => exact absurd hk (hne _ (by simp))
    | string hd => subst hd; decide
  · rcases h.blank z' hz' d (List.mem_of_mem_head? hd) with rfl | rfl <;> decide

/-! ## Words read again

A name is found to be a keyword by its letters, if no dot touches it.  So two things are shown of
every word of a layout: a keyword has no dot beside it, and a name that is spelled like a keyword
has one.
-/

/-- The last character of what stands in front of a site. -/
lemma getLast?_textOf (h : Sited raw origins all sites) (hz : z ∈ sites) :
    (Site.textOf case (front ++ [z])).getLast? = (z.shown case).getLast? := by
  have hne := (h.solid_shown hz case).ne_nil
  rw [Site.textOf, List.flatMap_append, List.flatMap_singleton,
    List.getLast?_append_of_ne_nil _ (by simp [hne]), List.getLast?_append_of_ne_nil _ hne]

/-- In front of a keyword there is no dot, so it is read as a keyword again.  With a space in
between there is none, and of the tokens that a keyword may touch only a dot ends in one; but in a
query without neighbours that fuse no keyword is behind a dot. -/
lemma not_dot_before (h : Sited raw origins all sites) (hsites : sites = front ++ z :: back)
    (hkeyword : z.token.isKeyword = true) :
    (Site.textOf case front ++ z.slot.space).getLast? ≠ some '.' := by
  have hz : z ∈ sites := by simp [hsites]
  by_cases hspace : z.slot.space = []
  · rw [hspace, List.append_nil]
    rcases List.eq_nil_or_concat front with rfl | ⟨front, y, rfl⟩
    · simp [Site.textOf]
    rw [List.concat_eq_append] at hsites ⊢
    have hy : y ∈ sites := by simp [hsites]
    rw [h.getLast?_textOf hy]
    obtain ⟨word, hword⟩ := isKeyword_iff.1 hkeyword
    obtain ⟨d, hd⟩ : ∃ d, d ∈ (z.shown case).head? := by
      obtain ⟨d, t, ht⟩ := List.exists_cons_of_ne_nil (h.solid_shown hz case).ne_nil
      exact ⟨d, by simp [ht]⟩
    have hneighbours : sites = front ++ y :: z :: back := by simp [hsites]
    have hshown : y.token.kind ≠ .lineComment → y.token.isKeyword = false →
        y.shown case = y.raw.text := fun hcomment hcode => shown_eq hcode hcomment
    cases h.touches hneighbours hspace hd with
    | mark hpunctuation =>
      rcases of_punctuation? hpunctuation with h | h | h | h | h <;> cases hword.symm.trans h.2
    | opening hkind =>
      rw [hshown (by simp [hkind]) (by simp [Token.isKeyword, hkind]), h.text_openParen hy hkind]
      simp
    | dot hkind =>
      have hsafe := h.safe_of_neighbours hneighbours (by simp [hkind])
        (by simp [hword, Kind.stays, Kind.movesUp])
      simp [hsafe.dot_keyword hkind] at hkeyword
    | plus hkind htext =>
      rw [hshown (by simp [hkind]) (by simp [Token.isKeyword, hkind]), htext]
      simp
    | minus hkind htext =>
      rw [hshown (by simp [hkind]) (by simp [Token.isKeyword, hkind]), htext]
      simp
    | bracket _ hkind => cases hword.symm.trans hkind
    | cast _ hkind => cases hword.symm.trans hkind
    | index hkind htext =>
      rw [hshown (by simp [hkind]) (by simp [Token.isKeyword, hkind])]
      simp only [List.mem_cons, List.not_mem_nil, or_false] at htext
      rcases htext with htext | htext <;> rw [htext] <;> simp
    | string hquote =>
      have hletter := (isAlpha_of_ofWord? (h.ofWord?_shown hz hword case)).2 d
        (List.mem_of_mem_head? hd)
      rw [hquote] at hletter
      cases hletter
  · rw [List.getLast?_append_of_ne_nil _ hspace]
    intro hdot
    rcases h.blank z hz '.' (List.mem_of_getLast? hdot) with hc | hc <;> cases hc

/-- Behind a keyword there is no dot. -/
lemma not_dot_behind (h : Sited raw origins all sites) (hsites : sites = front ++ z :: back)
    (hkeyword : z.token.isKeyword = true) : '.' ∉ (Site.textOf case back).head? := by
  intro hd
  obtain ⟨word, hword⟩ := isKeyword_iff.1 hkeyword
  rcases back with _ | ⟨z', back⟩
  · cases hd
  have hz' : z' ∈ sites := by simp [hsites]
  rcases h.head_textOf hz' hd with ⟨hspace, hd⟩ | hd
  · cases h.touches hsites hspace hd with
    | mark hpunctuation =>
      have hdot : z'.token.kind = .dot := (Option.some.inj hpunctuation).symm
      have hsafe := h.safe_of_neighbours hsites (by simp [hword])
        (by simp [hdot, Kind.stays, Kind.movesUp])
      exact hsafe.keyword_dot hkeyword hdot
    | opening hkind => cases hword.symm.trans hkind
    | dot hkind => cases hword.symm.trans hkind
    | plus hkind => cases hword.symm.trans hkind
    | minus hkind => cases hword.symm.trans hkind
    | bracket hd => rcases hd with hd | hd <;> cases hd
    | cast hd => cases hd
    | index hkind => cases hword.symm.trans hkind
    | string hd => cases hd
  · rcases h.blank z' hz' '.' (List.mem_of_mem_head? hd) with hc | hc <;> cases hc

variable (case) in
/-- A name that spells a keyword has a dot beside it in the layout, too.  The dot is the next token
to it in the query, neither of them moves, and no space is put between a dot and a name. -/
lemma dot_beside_shown (h : Sited raw origins all sites) (hsites : sites = front ++ z :: back)
    (hkind : z.raw.kind = .identifier) (hword : Keyword.ofWord? z.raw.text ≠ none) :
    (Site.textOf case front ++ z.slot.space).getLast? = some '.' ∨
      '.' ∈ (Site.textOf case back).head? := by
  have hz : z ∈ sites := by simp [hsites]
  obtain ⟨f, b, hsplit⟩ := List.append_of_mem (h.mem_origins hz)
  have hstays : z.origin.kind.stays = true :=
    h.stays_of_raw (h.mem_origins hz) (List.mem_cons.2 (.inl hkind))
  have hdotStays : ∀ p ∈ origins, p.raw.kind = .dot → p.kind.stays = true := fun p hp hdot =>
    h.stays_of_raw hp (by simp [hdot])
  have hshown : ∀ y ∈ sites, y.raw.kind = .dot → y.shown case = ".".toList := by
    intro y hy hdot
    have hk := (h.kind_eq_of_raw hy (by simp [Token.isKeyword, hdot])).trans hdot
    rw [shown_eq (by simp [Token.isKeyword, hk]) (by simp [hk]), h.text_dot hy hk]
  rcases h.dot_beside hsplit hkind hword with ⟨p, hp, hdot⟩ | ⟨q, hq, hdot⟩
  · obtain ⟨f, rfl⟩ := List.getLast?_eq_some_iff.1 hp
    have hpz : [p, z.origin] <:+: origins := ⟨f, b, by simp [hsplit]⟩
    obtain ⟨front, y, rfl, rfl⟩ :=
      h.exists_previous hpz (hdotStays p (by simp [hsplit]) hdot) hstays hsites rfl
    have hneighbours : sites = front ++ y :: z :: back := by simp [hsites]
    have hy : y ∈ sites := by simp [hsites]
    rw [h.space_behind_dot hneighbours hdot (.inl hkind),
      List.append_nil, h.getLast?_textOf hy, hshown y hy hdot]
    exact .inl rfl
  · obtain ⟨b, rfl⟩ := List.head?_eq_some_iff.1 hq
    have hzq : [z.origin, q] <:+: origins := ⟨f, b, by simp [hsplit]⟩
    obtain ⟨y, back, rfl, rfl⟩ :=
      h.exists_next hzq hstays (hdotStays q (by simp [hsplit]) hdot) hsites rfl
    have hy : y ∈ sites := by simp [hsites]
    rw [Site.textOf_cons, h.space_dot hsites hkind hdot, hshown y hy hdot]
    exact .inr rfl

/-- A name that starts with a digit is no number in the layout either.  If all of it are digits, a
dot and a word have kept it from being a number, and they stand behind it in the layout as well; if
not, its own characters have. -/
lemma number?_behind (h : Sited raw origins all sites) (hsites : sites = front ++ z :: back)
    (hkind : z.raw.kind = .identifier) {c : Char} {v : Text} (htext : z.raw.text = c :: v)
    (hc : c.isDigit = true) : number? (v ++ Site.textOf case back) = none := by
  have hz : z ∈ sites := by simp [hsites]
  have hclear : ∀ d ∈ (Site.textOf case back).head?, isWordChar d = false ∧ d ≠ '+' ∧ d ≠ '-' :=
    fun d hd => h.clear_behind hsites (.inl (by rw [hkind]; rfl)) hd
  by_cases hv : ∀ d ∈ v, Char.isDigit d = true
  · -- a dot and a word follow, and they touch the name and each other
    obtain ⟨f, b, hsplit⟩ := List.append_of_mem (h.mem_origins hz)
    obtain ⟨p, x, b, rfl, hdot, hxkind, hnone⟩ :=
      h.dot_behind_digits hsplit (by rw [← Site.raw, hkind]; rfl) htext hc hv
    have hstays : z.origin.kind.stays = true :=
      h.stays_of_raw (h.mem_origins hz) (List.mem_cons.2 (.inl hkind))
    have hpstays : p.kind.stays = true := h.stays_of_raw (by simp [hsplit]) (by simp [hdot])
    have hxstays : x.kind.stays = true :=
      h.stays_of_raw (by simp [hsplit]) (by rcases hxkind with hk | hk | hk <;> simp [hk])
    obtain ⟨y, back, rfl, rfl⟩ :=
      h.exists_next ⟨f, x :: b, by simp [hsplit]⟩ hstays hpstays hsites rfl
    have hsites' : sites = (front ++ [z]) ++ y :: back := by simp [hsites]
    obtain ⟨y', back, rfl, rfl⟩ :=
      h.exists_next ⟨f ++ [z.origin], b, by simp [hsplit]⟩ hpstays hxstays hsites' rfl
    have hsites'' : sites = (front ++ [z, y]) ++ y' :: back := by simp [hsites]
    have hy : y ∈ sites := by simp [hsites]
    have hy' : y' ∈ sites := by simp [hsites]
    have hykind : y.token.kind = .dot :=
      (h.kind_eq_of_raw hy (by simp [Token.isKeyword, Site.raw, hdot])).trans hdot
    have hykind' : y'.token.kind = y'.raw.kind := by
      refine h.kind_eq_of_raw hy' ?_
      rcases hxkind with hk | hk | hk <;> simp [Token.isKeyword, Site.raw, hk]
    rw [Site.textOf_cons, Site.textOf_cons, h.space_dot hsites hkind hdot,
      h.space_behind_dot hsites' hdot hxkind, shown_eq (by simp [Token.isKeyword, hykind])
        (by simp [hykind]), h.text_dot hy hykind, shown_eq, List.nil_append, List.nil_append]
    · refine hnone _ fun d hd => h.clear_behind hsites'' ?_ hd
      rcases hxkind with hk | hk | hk <;> simp [Site.raw, hk, Kind.isWord]
    · rcases hxkind with hk | hk | hk <;> simp [Token.isKeyword, hykind', Site.raw, hk]
    · rcases hxkind with hk | hk | hk <;> simp [hykind', Site.raw, hk]
  · obtain ⟨before, c', v', r, htext', hlexeme⟩ := h.lexeme_site hz
    obtain ⟨rfl, rfl⟩ := List.cons.inj (htext.symm.trans htext')
    obtain ⟨-, -, hr, hnumber⟩ := hlexeme.isWordText (by rw [hkind]; rfl)
    refine number?_append_eq_none (hnumber hc) hr (fun d hd => (hclear d hd).1) ?_
      fun d hd => (hclear d hd).2
    simpa using hv

/-- A keyword is a word and no number. -/
lemma isWordText_of_ofWord? {c : Char} {v : Text} {word : Keyword}
    (h : Keyword.ofWord? (c :: v) = some word) : IsWordText c v ∧ c.isDigit = false := by
  obtain ⟨-, hletters⟩ := isAlpha_of_ofWord? h
  obtain ⟨hc, hv⟩ := List.forall_mem_cons.1 hletters
  have hword : ∀ d : Char, d.isAlpha = true → isWordChar d = true := fun d hd =>
    isWordChar_of_isAlphanum (by simp [Char.isAlphanum, hd])
  refine ⟨⟨hword c hc, fun d hd => hword d (hv d hd), ?_⟩, ?_⟩
  · rintro rfl
    cases hc
  · have hletter := forall_ascii (p := fun c => !c.isAlpha || !c.isDigit) (by decide)
      (toNat_lt_of_isAlpha hc)
    simpa [hc] using hletter

/-- A name is read as one, or as the keyword that it was to the lexer.  What is a name now may have
been a keyword that was settled to be a name, and settling will find that again. -/
lemma wordKind_shown (h : Sited raw origins all sites) (hsites : sites = front ++ z :: back)
    (hword : z.raw.kind.isWord = true) (hkeyword : z.token.isKeyword = false) {kind : Kind}
    (hkind : kind =
      wordKind (Site.textOf case front ++ z.slot.space).getLast? z.raw.text
        (Site.textOf case back)) :
    kind = z.raw.kind ∨
      z.raw.isKeyword = true ∧ z.token.kind = .identifier ∧ kind = .identifier := by
  have hz : z ∈ sites := by simp [hsites]
  rcases eq_of_isWord (hkind ▸ isWord_wordKind ..) with rfl | ⟨word, rfl⟩
  · rcases eq_of_isWord hword with hraw | ⟨word, hraw⟩
    · exact .inl hraw.symm
    · have hraw : z.raw.isKeyword = true := isKeyword_iff.2 ⟨word, hraw⟩
      refine .inr ⟨hraw, ?_, rfl⟩
      rcases (h.demotes_site hz).kind with hk | hk
      · have hsame : z.token.isKeyword = z.raw.isKeyword := by simp [Token.isKeyword, hk]
        simp [hsame, hraw] at hkeyword
      · exact hk.2
  · obtain ⟨hbefore, hbehind, hofWord⟩ := wordKind_eq_keyword_iff.1 hkind.symm
    left
    rcases eq_of_isWord hword with hraw | ⟨word', hraw⟩
    · rcases h.dot_beside_shown case hsites hraw (by simp [hofWord]) with hdot | hdot
      · exact absurd hdot hbefore
      · exact absurd hdot hbehind
    · obtain ⟨before, c, v, r, htext, hlexeme⟩ := h.lexeme_site hz
      have hread := (hlexeme.isWordText hword).2.1
      rw [hraw, ← htext] at hread
      rw [hraw, Option.some.inj (hofWord.symm.trans (wordKind_eq_keyword_iff.1 hread.symm).2.2)]

variable (case) in
/-- **What a site shows is a lexeme** behind what is in front of it and in front of what is behind
it.  It is of the kind that the lexer read in the query, but a keyword that was demoted may already be
read as the name that it is. -/
lemma exists_lexeme_shown (h : Sited raw origins all sites) (hsites : sites = front ++ z :: back) :
    ∃ c v kind, z.shown case = c :: v ∧
      Lexeme (Site.textOf case front ++ z.slot.space).getLast? c v (Site.textOf case back) kind ∧
      (kind = z.raw.kind ∨
        z.raw.isKeyword = true ∧ z.token.kind = .identifier ∧ kind = .identifier) := by
  have hz : z ∈ sites := by simp [hsites]
  have hstops : ∀ d ∈ (Site.textOf case back).head?, stops z.raw.kind (z.shown case) d = true :=
    fun d hd => h.stops_behind hsites hd
  obtain ⟨before, c, v, r, htext, hlexeme⟩ := h.lexeme_site hz
  by_cases hword : z.raw.kind.isWord = true
  · have hclear : ∀ d ∈ (Site.textOf case back).head?, isWordChar d = false := fun d hd =>
      (h.clear_behind hsites (.inl hword) hd).1
    by_cases hkeyword : z.token.isKeyword = true
    · -- a keyword in its case is still one, for no dot is beside it
      obtain ⟨word, hkind⟩ := isKeyword_iff.1 hkeyword
      have hofWord := h.ofWord?_shown hz hkind case
      obtain ⟨d, w, hshown⟩ := List.exists_cons_of_ne_nil (isAlpha_of_ofWord? hofWord).1
      rw [hshown] at hofWord
      obtain ⟨hwordText, hdigit⟩ := isWordText_of_ofWord? hofWord
      have hread : Lexeme (Site.textOf case front ++ z.slot.space).getLast? d w _ _ :=
        hwordText.lexeme hclear fun hd => by simp [hdigit] at hd
      rw [wordKind_eq_keyword_iff.2 ⟨h.not_dot_before hsites hkeyword,
        h.not_dot_behind hsites hkeyword, hofWord⟩] at hread
      exact ⟨d, w, _, hshown, hread, .inl ((h.kind_eq hz (by simp [hkind])).trans hkind).symm⟩
    · rw [Bool.not_eq_true] at hkeyword
      obtain ⟨hwordText, hread, -, -⟩ := hlexeme.isWordText hword
      have hshown : z.shown case = z.raw.text := shown_eq hkeyword fun hcomment => by
        have hraw := h.kind_eq hz (by simp [hcomment])
        simp [hraw, hcomment, Kind.isWord] at hword
      refine ⟨c, v, _, hshown.trans htext, hwordText.lexeme hclear fun hdigit => ?_,
        h.wordKind_shown hsites hword hkeyword (by rw [htext])⟩
      rcases eq_of_isWord hword with hraw | ⟨word, hraw⟩
      · exact h.number?_behind hsites hraw htext hdigit
      · have hofWord := (wordKind_eq_keyword_iff.1 (hread.symm.trans hraw)).2.2
        simp [(isWordText_of_ofWord? hofWord).2] at hdigit
  · rw [Bool.not_eq_true] at hword
    have hkeyword : z.raw.isKeyword = false := by
      cases hk : z.raw.kind <;> simp_all [Token.isKeyword, Kind.isWord]
    have hkind := h.kind_eq_of_raw hz hkeyword
    have hkeyword' : z.token.isKeyword = false := by simpa [Token.isKeyword, hkind] using hkeyword
    by_cases hcomment : z.raw.kind = .lineComment
    · -- a line comment is trimmed, and a line feed is behind it
      rw [hcomment] at hlexeme hstops
      obtain ⟨w, htrim, hread⟩ := hlexeme.trimEnd fun d hd => by simpa [stops] using hstops d hd
      refine ⟨c, w, _, ?_, hread, .inl hcomment.symm⟩
      rw [Site.shown, hkind, hcomment, written, htext, htrim]
    · have hshown : z.shown case = z.raw.text := shown_eq hkeyword' (hkind ▸ hcomment)
      rw [hshown, htext] at hstops
      exact ⟨c, v, _, hshown.trans htext, hlexeme.append hword hstops, .inl rfl⟩

/-! ## Tokens read again -/

variable (case) in
/-- **What sites show is read site by site**, the induction being from the last site to the first.
The blanks between two sites come to blanks, and each site to one token that reads like it. -/
lemma exists_scanned (h : Sited raw origins all sites) (hsites : sites = front ++ back)
    (fresh : Bool) :
    ∃ tokens, Scanned (Site.textOf case front).getLast? tokens ∧
      tokens.flatMap Token.text = Site.textOf case back ∧
      List.Forall₂ (Site.Reads case) back (wordsOf fresh true tokens) := by
  induction back generalizing front fresh with
  | nil => exact ⟨[], trivial, rfl, .nil⟩
  | cons z back ih =>
    have hz : z ∈ sites := by simp [hsites]
    have hnext : sites = (front ++ [z]) ++ back := by simp [hsites]
    obtain ⟨tokens, hscanned, htext, hreads⟩ := ih hnext false
    rw [h.getLast?_textOf hz] at hscanned
    obtain ⟨c, v, kind, hshown, hlexeme, hkind⟩ := h.exists_lexeme_shown case hsites
    have hblank : kind ≠ .blank := by
      rintro rfl
      rcases hkind with hk | ⟨-, -, hk⟩
      · exact h.kind_raw_ne_blank hz hk.symm
      · cases hk
    rw [← htext] at hlexeme
    cases hspace : z.slot.space with
    | nil =>
      rw [hspace, List.append_nil] at hlexeme
      refine ⟨⟨kind, z.shown case, 0⟩ :: tokens, ⟨⟨c, v, hshown, hlexeme⟩, hscanned⟩,
        by simp [htext, hspace], ?_⟩
      rw [wordsOf, if_neg hblank]
      exact .cons ⟨rfl, hkind, by simp [hspace]⟩ hreads
    | cons d space =>
      have hspacing : ∀ e ∈ d :: space, isSpacing e = true := fun e he => by
        rcases h.blank z hz e (hspace ▸ he) with rfl | rfl <;> rfl
      have hsolid := h.solid_shown hz case
      rw [List.getLast?_append_of_ne_nil _ (by simp [hspace]), hspace] at hlexeme
      refine ⟨⟨.blank, d :: space, 0⟩ :: ⟨kind, z.shown case, 0⟩ :: tokens,
        ⟨⟨d, space, rfl, ?_⟩, ⟨c, v, hshown, hlexeme⟩, hscanned⟩, by simp [htext, hspace], ?_⟩
      · refine .blank (hspacing d (List.mem_cons_self ..)) (runLength_append
          (fun e he => hspacing e (List.mem_cons_of_mem _ he)) fun e he => ?_)
        rw [List.flatMap_cons, List.head?_append_of_ne_nil _ hsolid.ne_nil] at he
        exact hsolid.head e he
      · rw [wordsOf, if_pos rfl, wordsOf, if_neg hblank]
        exact .cons ⟨rfl, hkind, by simp [hspace]⟩ hreads

/-- What a layout shows is what its sites show. -/
lemma flatMap_text (h : Sited raw origins all sites) :
    (sites.map Site.slot).flatMap (Slot.text case) = Site.textOf case sites := by
  rw [List.flatMap_map, Site.textOf]
  exact List.flatMap_congr fun z hz => congrArg (_ ++ ·) (h.shown_stroke hz)

variable (case) in
/-- A layout is tokenized, and its words are read from its sites. -/
lemma exists_tokenize (h : Sited raw origins all sites) :
    ∃ raw', tokenize (Site.textOf case sites) = .ok (settleKeywords none raw') ∧
      List.Forall₂ (Site.Reads case) sites (wordsOf true true raw') := by
  obtain ⟨tokens, hscanned, htext, hreads⟩ :=
    h.exists_scanned case (List.nil_append sites).symm true
  obtain ⟨raw', hraw', hsame⟩ := lexemesFrom_of_scanned hscanned 0
  refine ⟨raw', ?_, ?_⟩
  · replace hraw' : lexemesFrom none 0 (tokens.flatMap Token.text) = .ok raw' := hraw'
    rw [tokenize, ← htext, hraw']
    rfl
  · have hwords := forall₂_wordsOf hsame (fun t u htu => by rw [htu.1]) (fun t u htu _ => htu.2)
      true true
    refine forall₂_trans (fun z w v hzw hwv => ?_) hreads hwords
    obtain ⟨⟨hkind, htext⟩, -, htouching⟩ := hwv
    exact ⟨htext.trans hzw.text, hkind ▸ hzw.kind, htouching ▸ hzw.touching⟩

/-- What is read from a site is code, or a comment, as the token is in its query. -/
lemma isTrivia_of_reads (h : Sited raw origins all sites) (hz : z ∈ sites) {w : Word}
    (hw : z.Reads case w) : w.token.isTrivia = z.token.isTrivia ∧
      w.token.isComment = z.token.isComment := by
  have hsame : z.raw.kind.isWord = false → w.token.kind = z.token.kind := by
    intro hraw
    have hkeyword : z.raw.isKeyword = false := by
      cases hk : z.raw.kind <;> simp_all [Token.isKeyword, Kind.isWord]
    rw [h.kind_eq_of_raw hz hkeyword]
    exact hw.kind.resolve_right fun hdemoted => by simp [hkeyword] at hdemoted
  cases hraw : z.raw.kind.isWord with
  | true =>
    have hz' : z.token.kind.isWord = true := by
      rcases (h.demotes_site hz).kind with hk | ⟨-, hk⟩ <;> rw [hk]
      · exact hraw
      · rfl
    have hw' : w.token.kind.isWord = true := by
      rcases hw.kind with hk | ⟨-, -, hk⟩ <;> rw [hk]
      · exact hraw
      · rfl
    simp [Token.code_of_isWord hz', Token.code_of_isWord hw']
  | false => simp [Token.isTrivia, Token.isComment, hsame hraw]

end Sited

/-! ## A layout read again -/

section Layout

variable {raw : List Token} {origins : List Origin} {all : List Stroke} {sites : List Site}
  {case : KeywordCase}

/-- Tokens in their places read as they did when they were settled.  One that was a keyword then and
a name now was not kept as a keyword, for settling keeps the kind of one that is. -/
lemma rereads_of_reads {os : List Origin} {us : List Token} {before : Option Token}
    (hreads : List.Forall₂ (fun (o : Origin) u => u.kind = o.raw.kind ∨
      o.raw.isKeyword = true ∧ o.word.token.kind = .identifier ∧ u.kind = .identifier) os us)
    (hcode : ∀ o ∈ os, o.raw.isTrivia = false)
    (hsettle : os.map (Word.token ∘ Origin.word) = settleKeywords before (os.map Origin.raw)) :
    Rereads before (os.map Origin.raw) us := by
  induction hreads generalizing before with
  | nil => exact .nil before
  | @cons o u os us hou _ ih =>
    obtain ⟨ho, hos⟩ := List.forall_mem_cons.1 hcode
    have hraws : ∀ t ∈ os.map Origin.raw, t.isTrivia = false := by
      simpa using hos
    rw [List.map_cons, List.map_cons, settleKeywords, ho, find?_of_code hraws] at hsettle
    obtain ⟨hhead, htail⟩ := List.cons.inj hsettle
    refine .cons (hou.imp_right ?_) (ih hos htail)
    rintro ⟨hkeyword, hname, hu⟩
    obtain ⟨word, hword⟩ := isKeyword_iff.1 hkeyword
    refine ⟨word, hword, hu, ?_⟩
    have hkind := kind_settle_of_keyword hword before (os.map Origin.raw).head?
    rw [← hhead] at hkind
    by_contra hkept
    rw [Bool.not_eq_false] at hkept
    rw [hkept, if_pos rfl] at hkind
    cases hname.symm.trans hkind

/-- Demoting a keyword makes neither a blank nor a comment of it. -/
lemma Token.Demotes.isTrivia {t u : Token} (h : t.Demotes u) :
    u.isTrivia = t.isTrivia ∧ u.isComment = t.isComment := by
  rcases h.kind with hkind | ⟨hkeyword, hkind⟩
  · simp [Token.isTrivia, Token.isComment, hkind]
  · obtain ⟨word, hword⟩ := isKeyword_iff.1 hkeyword
    simp [Token.code_of_isWord (t := t) (by rw [hword]; rfl),
      Token.code_of_isWord (t := u) (by rw [hkind]; rfl)]

/-- The token `u` is what a layout shows of `t`: of the same kind, and with the text that the style
chose. -/
structure Token.Shows (case : KeywordCase) (t u : Token) : Prop where
  kind : u.kind = t.kind
  text : u.text = written case t.kind t.text

/-- Code, or comments. -/
def IsSort (p : Token → Bool) : Prop := p = (!·.isTrivia) ∨ p = Token.isComment

lemma IsSort.filter_eq {p : Token → Bool} (hp : IsSort p) (ts : List Token) :
    (ts.filter (·.kind != .blank)).filter p = ts.filter p := by
  rw [List.filter_filter]
  refine List.filter_congr fun t _ => ?_
  rcases hp with rfl | rfl <;> cases hk : t.kind <;> simp [Token.isTrivia, Token.isComment, hk]

/-- Words that are read from their sites, in the order of the query: hoisting does not mix code and
comments. -/
lemma Sited.forall₂_filter (h : Sited raw origins all sites) {raw' : List Token}
    (hreads : List.Forall₂ (Site.Reads case) sites (wordsOf true true raw')) {p : Token → Bool}
    (hp : IsSort p) :
    List.Forall₂ (fun (o : Origin) u => u.text = written case o.word.token.kind o.raw.text ∧
        (u.kind = o.raw.kind ∨
          o.raw.isKeyword = true ∧ o.word.token.kind = .identifier ∧ u.kind = .identifier))
      (origins.filter fun o => p o.word.token) (raw'.filter p) := by
  have hwith : List.Forall₂ (fun z (w : Word) => z ∈ sites ∧ z.Reads case w) sites
      (wordsOf true true raw') := (List.forall₂_and_left _ _).2 ⟨fun z hz => hz, hreads⟩
  have hfilter := List.rel_filter (p := fun z => p z.token) (q := fun w => p w.token)
    (fun z w hzw => by
      have htrivia := h.isTrivia_of_reads hzw.1 hzw.2
      rcases hp with rfl | rfl <;> simp [htrivia]) hwith
  have hraw' : ((wordsOf true true raw').filter fun w => p w.token).map Word.token =
      raw'.filter p := by
    rw [← Function.comp_def p, ← List.filter_map, map_token_wordsOf, hp.filter_eq]
  have horigins : (sites.filter fun z => p z.token).map Site.origin =
      origins.filter fun o => p o.word.token := by
    rw [← h.order.filter_eq (p := fun o => p o.word.token), List.filter_map]
    · rfl
    · intro c k hc hk
      change c.word.token.kind = .lineComment at hc
      change k.word.token.kind.movesUp = true at hk
      rcases hp with rfl | rfl
      · simp [Token.isTrivia, Token.isComment, hc]
      · cases hkind : k.word.token.kind <;> simp_all [Kind.movesUp, Token.isComment]
  rw [← horigins, ← hraw', List.forall₂_map_left_iff, List.forall₂_map_right_iff]
  exact hfilter.imp fun z w hzw => ⟨hzw.2.text, hzw.2.kind⟩

/-- The tokens of one sort, as they were read and as they are in the query. -/
lemma Sited.filter_eq (h : Sited raw origins all sites)
    (hwords : origins.map Origin.word = words (settleKeywords none raw)) {p : Token → Bool}
    (hp : IsSort p) :
    raw.filter p = (origins.filter fun o => p o.word.token).map Origin.raw ∧
      (settleKeywords none raw).filter p =
        (origins.filter fun o => p o.word.token).map (Word.token ∘ Origin.word) := by
  constructor
  · rw [← hp.filter_eq, ← h.raws, List.filter_map]
    congr 1
    refine List.filter_congr fun o ho => ?_
    have htrivia := (h.demotes o ho).isTrivia
    rcases hp with rfl | rfl <;> simp [htrivia]
  · rw [← hp.filter_eq, ← map_token_wordsOf true false, ← words, ← hwords, List.map_map,
      List.filter_map]
    rfl

variable (case) in
/-- **A layout is read as its query was**: the same code of the same kinds, and the same
comments. -/
theorem Sited.exists_reread (h : Sited raw origins all sites)
    (hwords : origins.map Origin.word = words (settleKeywords none raw)) :
    ∃ tokens, tokenize (Site.textOf case sites) = .ok tokens ∧
      List.Forall₂ (Token.Shows case) ((settleKeywords none raw).filter (!·.isTrivia))
        (tokens.filter (!·.isTrivia)) ∧
      List.Forall₂ (Token.Shows case) ((settleKeywords none raw).filter Token.isComment)
        (tokens.filter Token.isComment) := by
  obtain ⟨raw', htokens, hreads⟩ := h.exists_tokenize case
  refine ⟨_, htokens, ?_, ?_⟩
  · have hcode := h.forall₂_filter hreads (.inl rfl)
    obtain ⟨hraw, htoken⟩ := h.filter_eq hwords (.inl rfl)
    generalize hos : (origins.filter fun o => !o.word.token.isTrivia) = os at *
    have hrereads : Rereads none (raw.filter (!·.isTrivia)) (raw'.filter (!·.isTrivia)) := by
      rw [hraw]
      refine rereads_of_reads (hcode.imp fun o u hou => hou.2) (fun o ho => ?_) ?_
      · have hmem : o.raw ∈ raw.filter (!·.isTrivia) := hraw ▸ List.mem_map_of_mem ho
        simpa using (List.mem_filter.1 hmem).2
      · rw [← htoken, filter_settleKeywords, hraw]
    have hkinds : List.Forall₂ (fun t u => u.kind = t.kind)
        (settleKeywords none (raw.filter (!·.isTrivia))) (settleKeywords none _) :=
      kind_settleKeywords hrereads (by simp) (by simp) fun _ _ => .none
    rw [← filter_settleKeywords, htoken, List.forall₂_map_left_iff] at hkinds
    have htexts := forall₂_trans (T := fun (o : Origin) u =>
      u.text = written case o.word.token.kind o.raw.text)
      (fun o u u' hou huu' => huu'.text.trans hou.1) hcode
      (demotes_settleKeywords none (raw'.filter (!·.isTrivia)))
    rw [htoken, filter_settleKeywords, List.forall₂_map_left_iff]
    have hmem : ∀ o ∈ os, o ∈ origins := fun o ho => by
      rw [← hos] at ho
      exact (List.mem_filter.1 ho).1
    refine ((List.forall₂_and_left _ _).2 ⟨hmem, forall₂_and hkinds htexts⟩).imp ?_
    rintro o u ⟨ho, hkind, htext⟩
    exact ⟨hkind, by rw [htext, ← (h.demotes o ho).text]; rfl⟩
  · rw [filter_isComment_settleKeywords, filter_isComment_settleKeywords,
      (h.filter_eq hwords (.inr rfl)).1, List.forall₂_map_left_iff]
    refine ((List.forall₂_and_left _ _).2 ⟨fun o ho => List.mem_filter.1 ho,
      h.forall₂_filter hreads (.inr rfl)⟩).imp ?_
    rintro o u ⟨⟨ho, hcomment⟩, htext, hkind⟩
    have hcode := Token.isKeyword_of_isComment ((h.demotes o ho).isTrivia.2 ▸ hcomment)
    have hraw : o.word.token.kind = o.raw.kind := h.kind_of_raw ho hcode
    exact ⟨hkind.resolve_right fun hdemoted => by simp [hcode] at hdemoted, hraw ▸ htext⟩

end Layout

/-- **Formatting keeps every token** of a query whose neighbours are safe to touch.  Its output is
tokenized; the code is that of the query, of the same kinds and in the same order, with keywords in
the case of the style, and so are the comments, without the white space at the end of line
comments. -/
theorem tokenize_formatQuery {query : Text} {dialect : Dialect} {script : Script}
    {tokens : List Token} (style : Style) (hparse : parse query dialect = .ok script)
    (htokens : tokenize query = .ok tokens)
    (hsafe : (tokens.filter (·.kind != .blank)).IsChain Token.SafeBefore) :
    ∃ out tokens', formatQuery style dialect query = .ok out ∧ tokenize out = .ok tokens' ∧
      List.Forall₂ (Token.Shows style.keywordCase) (tokens.filter (!·.isTrivia))
        (tokens'.filter (!·.isTrivia)) ∧
      List.Forall₂ (Token.Shows style.keywordCase) (tokens.filter Token.isComment)
        (tokens'.filter Token.isComment) := by
  obtain ⟨tokens₀, slots, htokens₀, hsettled, hsets⟩ := exists_sets_of_parse hparse style
  obtain rfl := Except.ok.inj (htokens.symm.trans htokens₀)
  obtain ⟨raw, hraw, rfl⟩ := exists_of_tokenize htokens
  obtain ⟨origins, sites, hsited, hwords, rfl⟩ := exists_sited hraw hsettled hsets hsafe
  obtain ⟨tokens', htokens', hcode, hcomments⟩ :=
    hsited.exists_reread style.keywordCase hwords
  refine ⟨_, tokens', by rw [formatQuery, hparse]; rfl, ?_, hcode, hcomments⟩
  rw [← hsets.text, hsited.flatMap_text]
  exact htokens'

/-- A sign, a cast and a name that spells a keyword behind a dot. -/
theorem tokenize_formatQuery_order :
    ∃ out tokens, formatQuery {} .native "select -a::b from t . order" = .ok out ∧
      tokenize out = .ok tokens ∧
      List.Forall₂ (Token.Shows .upper)
        [⟨.keyword .SELECT, "select", 0⟩, ⟨.operator, "-", 7⟩, ⟨.identifier, "a", 8⟩,
          ⟨.operator, "::", 9⟩, ⟨.identifier, "b", 11⟩, ⟨.keyword .FROM, "from", 13⟩,
          ⟨.identifier, "t", 18⟩, ⟨.dot, ".", 20⟩, ⟨.identifier, "order", 22⟩]
        (tokens.filter (!·.isTrivia)) := by
  have htokens : tokenize "select -a::b from t . order" =
      .ok [⟨.keyword .SELECT, "select", 0⟩, ⟨.blank, " ", 6⟩, ⟨.operator, "-", 7⟩,
        ⟨.identifier, "a", 8⟩, ⟨.operator, "::", 9⟩, ⟨.identifier, "b", 11⟩, ⟨.blank, " ", 12⟩,
        ⟨.keyword .FROM, "from", 13⟩, ⟨.blank, " ", 17⟩, ⟨.identifier, "t", 18⟩, ⟨.blank, " ", 19⟩,
        ⟨.dot, ".", 20⟩, ⟨.blank, " ", 21⟩, ⟨.identifier, "order", 22⟩] := by decide +kernel
  have hok : (parse "select -a::b from t . order" .native).isOk = true := by decide +kernel
  cases hparse : parse "select -a::b from t . order" .native with
  | error f =>
    rw [hparse] at hok
    cases hok
  | ok script =>
    obtain ⟨out, tokens', hout, htokens', hcode, -⟩ :=
      tokenize_formatQuery {} hparse htokens (by decide)
    exact ⟨out, tokens', hout, htokens', hcode⟩

/-- Where numbers and a dot stand apart in a query, they come together as another number. -/
theorem not_tokenize_formatQuery :
    formatQuery {} .jpql "select 1 . 5" = .ok "SELECT 1.5" ∧
    (tokenize "select 1 . 5").map
        (fun ts => (ts.filter (!·.isTrivia)).map fun t => (t.kind, t.text)) =
      .ok [(.keyword .SELECT, "select"), (.number, "1"), (.dot, "."), (.number, "5")] ∧
    (tokenize "SELECT 1.5").map
        (fun ts => (ts.filter (!·.isTrivia)).map fun t => (t.kind, t.text)) =
      .ok [(.keyword .SELECT, "SELECT"), (.number, "1.5")] := by
  decide +kernel

end SqlInlay.Sql
