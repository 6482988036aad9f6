import Mathlib.Data.List.Infix
import SqlInlay.Proofs.Sql.Stretches
import SqlInlay.Proofs.Sql.Relexing
import SqlInlay.Proofs.Sql.Coverage

/-!
# Operators that touch in the query

The lexer reads an operator that it does not know as several, one character each, and the layout
does not look at whether they touched.  `formatQuery_operators` says what becomes of two operators
side by side: they stay together where one of them binds as a cast or an index does, or the former
is a sign in front of an operand; anywhere else a space comes between them.  So `->>` and `||` stay
what they are, and `&&` does not (`not_formatQuery_operators`).

**No break.**  A line breaks neither behind an operator nor in front of one, so both are written in
one go (`Lawful.lines_run`), and `Lawful.exists_line` finds the line that they are on.  What is on a
line is in the output as it stands there (`Page.Presents.exists_stretch`).

**Spaces.**  Between two operators on a line the rule is short (`needsSpace_operators`): no space
behind a cast or an opening bracket, none in front of a cast or a bracket, and none behind a unary
sign.

**Signs.**  Whether a sign is unary depends on what stands in front of it on its line.  Line breaks
do not change the answer (`Page.Tip.isUnary_ready`): where a sign may start a line, what is in front
of it asks for an operand.  Comments may, and so may what moves up over them, so of a sign behind
those nothing is said.
-/

namespace SqlInlay.Sql

open SqlInlay.Text

/-! ## The space between operators -/

namespace Token

/-- No space goes between the two: the former is a cast or opens an index, or the latter is a cast or
a bracket. -/
def isBoundTo (p q : Token) : Bool :=
  p.text == "::" || p.text == "[" || q.text == "::" || q.text == "[" || q.text == "]"

end Token

lemma needsSpace_operators {τ : Trace} {p q : Token} (hp : p.kind = .operator)
    (hq : q.kind = .operator) (hkind : τ.kind = p.kind) (htext : τ.text = p.text)
    (hstop : τ.stop = some q.offset) (hcomment : opensComment τ q = false) :
    needsSpace τ q = !(p.isBoundTo q || τ.unary) := by
  have hright : hugsRight τ.kind = false := by rw [hkind, hp]; rfl
  have hleft : hugsLeft q.kind = false := by rw [hq]; rfl
  have hapart : apartUnlessTouching τ q = !(q.text == "[") := by
    simp only [apartUnlessTouching, hq, hstop, bne_self_eq_false]
    by_cases hbracket : q.text = "["
    · rw [if_pos hbracket, hbracket]
      rfl
    · rw [if_neg hbracket, beq_eq_false_iff_ne.2 hbracket]
      rfl
  rw [needsSpace, hcomment, hleft, hright, hapart, binds, htext, Token.isBoundTo]
  cases p.text == "::" <;> cases p.text == "[" <;> cases q.text == "::" <;>
    cases q.text == "[" <;> cases q.text == "]" <;> cases τ.unary <;> rfl

section Lexemes

variable {before : Option Char} {c : Char} {v r : Text}

lemma Lexeme.of_operator (h : Lexeme before c v r .operator) :
    IsSymbol c (v ++ r) ∧ operatorLength c (v ++ r) = v.length := by
  generalize hk : Kind.operator = k at h
  cases h with
  | operator hc h => exact ⟨hc, h⟩
  | word => exact absurd (isWord_wordKind before (c :: v) r) (by simp [← hk, Kind.isWord])
  | punctuation h => rcases of_punctuation? h with h | h | h | h | h <;> cases hk.trans h.2
  | _ => cases hk

/-- An operator and what touches it do not open a comment. -/
lemma Lexeme.not_opensComment (h : Lexeme before c v r .operator) {τ : Trace} {q : Token}
    (htext : τ.text = c :: v) (hq : q.text <+: r) : opensComment τ q = false := by
  obtain ⟨hsymbol, hlength⟩ := h.of_operator
  have hhead : ∀ d : Char, opensWith [d] q.text = true → d ∈ r.head? := by
    intro d hd
    obtain ⟨rest, rfl⟩ := hq
    obtain ⟨t, ht⟩ := opensWith_iff.1 hd
    simp [← ht]
  rw [opensComment, htext, Bool.or_eq_false_iff, Bool.and_eq_false_iff, Bool.and_eq_false_iff]
  by_cases hv : v = []
  · subst hv
    have hcloses : ∀ d : Char, closesWith [d] [c] = true → c = d := by
      intro d hd
      obtain ⟨t, ht⟩ := opensWith_iff.1 hd
      exact (List.cons.inj ht).1.symm
    constructor
    · by_contra hdash
      simp only [not_or, Bool.not_eq_false] at hdash
      exact hsymbol.lineComment (hcloses _ hdash.1) (hhead _ hdash.2)
    · by_contra hslash
      simp only [not_or, Bool.not_eq_false] at hslash
      exact hsymbol.blockComment (hcloses _ hslash.1) (hhead _ hslash.2)
  · have hclosed : ∀ long ∈ longOperators,
        closesWith "-" long = false ∧ closesWith "/" long = false := by decide
    obtain ⟨hdash, hslash⟩ := hclosed _ (mem_longOperators hlength hv)
    exact ⟨.inl hdash, .inl hslash⟩

end Lexemes

/-- Two operators side by side do not open a comment. -/
lemma not_opensComment_of_tokenize {query : Text} {tokens front back : List Token} {p q : Token}
    (htokens : tokenize query = .ok tokens) (hsplit : tokens = front ++ p :: q :: back)
    (hp : p.kind = .operator) {τ : Trace} (htext : τ.text = p.text) :
    opensComment τ q = false := by
  obtain ⟨raw, hraw, rfl⟩ := exists_of_tokenize htokens
  have hdemotes := demotes_settleKeywords none raw
  rw [hsplit] at hdemotes
  obtain ⟨front', rest, rfl, -, hrest⟩ := exists_append_of_forall₂ hdemotes.flip
  obtain ⟨p', rest, hp', hbehind, rfl⟩ := List.forall₂_cons_left_iff.1 hrest
  obtain ⟨q', back', hq', -, rfl⟩ := List.forall₂_cons_left_iff.1 hbehind
  obtain ⟨⟨c, v, htext', hlexeme⟩, -⟩ := (scanned_of_lexemesFrom hraw).of_append
  have hkind : p'.kind = .operator := by
    rcases hp'.kind with hkind | ⟨-, hkind⟩
    · rw [← hkind, hp]
    · rw [hp] at hkind
      cases hkind
  rw [hkind] at hlexeme
  refine hlexeme.not_opensComment (htext.trans (hp'.text.trans htext')) ?_
  rw [List.flatMap_cons, hq'.text]
  exact List.prefix_append _ _

/-! ## Written in one go -/

section Moves

variable {case : KeywordCase} {page : Page} {es rest : List Stroke} {ms ns : List Move}

/-- Moves divide where a stroke is put. -/
lemma exists_moves_split {s : Stroke} (h : strokesOf ms = es ++ s :: rest) :
    ∃ front back, ms = front ++ .put s :: back ∧ strokesOf front = es ∧ strokesOf back = rest := by
  obtain ⟨front, others, rfl, rfl, hothers⟩ := List.filterMap_eq_append_iff.1 h
  obtain ⟨quiet, m, back, rfl, hquiet, hm, rfl⟩ := List.filterMap_eq_cons_iff.1 hothers
  have hput : m = .put s := by
    cases m with
    | put r => exact congrArg _ (Option.some.inj hm)
    | breakAt indent => cases hm
    | continueAt indent => cases hm
    | separate => cases hm
  have hnone : strokesOf quiet = [] := List.filterMap_eq_nil_iff.2 hquiet
  refine ⟨front ++ quiet, back, by simp [hput], ?_, rfl⟩
  rw [strokesOf_append, hnone, List.append_nil]
  rfl

/-- Moves that do no harm do none as far as they go, and neither do those behind them. -/
lemma Lawful.of_append (h : Lawful case page es (ms ++ ns) rest) :
    Lawful case page es ms (strokesOf ns ++ rest) ∧
      Lawful case (page.run case ms) (es ++ strokesOf ms) ns rest := by
  induction ms generalizing page es with
  | nil => exact ⟨trivial, by simpa [strokesOf, Page.run] using h⟩
  | cons m ms ih =>
    obtain ⟨hm, hms⟩ := h
    obtain ⟨hfront, hback⟩ := ih hms
    have hahead : strokesOf (m :: (ms ++ ns)) ++ rest =
        strokesOf (m :: ms) ++ (strokesOf ns ++ rest) := by
      rw [← List.cons_append, strokesOf_append, List.append_assoc]
    refine ⟨⟨hahead ▸ hm, hfront⟩, ?_⟩
    have hsplit : strokesOf (m :: ms) = strokesOf [m] ++ strokesOf ms := strokesOf_append [m] ms
    rw [hsplit, ← List.append_assoc]
    exact hback

/-- Between two strokes of which neither allows a break, moves leave the page as it is. -/
lemma Lawful.lines_run {s r : Stroke} (h : Lawful case page (es ++ [s]) ms (r :: rest))
    (hquiet : strokesOf ms = []) (hs : s.allowsBehind = false) (hr : r.allowsBefore = false) :
    (page.run case ms).lines = page.lines ∧ (page.run case ms).fresh = page.fresh := by
  induction ms generalizing page with
  | nil => exact ⟨rfl, rfl⟩
  | cons m ms ih =>
    obtain ⟨hm, hms⟩ := h
    cases m with
    | put t => cases hquiet
    | breakAt indent =>
      have hbreak : AllowsBetween (es ++ [s]) (strokesOf ms ++ r :: rest) := hm
      have hms' : strokesOf ms = [] := hquiet
      rcases hbreak s (by simp) r (by simp [hms']) with hbehind | hbefore
      · rw [hs] at hbehind
        cases hbehind
      · rw [hr] at hbefore
        cases hbefore
    | continueAt indent =>
      rw [show strokesOf [.continueAt indent] = [] from rfl, List.append_nil] at hms
      exact ih hms hquiet
    | separate =>
      have haside : EndsAside (es ++ [s]) := hm
      have hbehind := haside.allowsBehind s (by simp)
      rw [hs] at hbehind
      cases hbehind

end Moves

/-! ## Signs -/

/-- The kind neither ends up behind comments nor between them. -/
def Kind.isSteady (k : Kind) : Bool :=
  k != .lineComment && k != .blockComment && k != .closeParen && k != .semicolon

/-- Behind what allows a break, an operand starts, comments and closed statements aside. -/
lemma Stroke.asksForOperand_of_starts {es : List Stroke} {p : Token} {r : Stroke}
    (h : (Stroke.write p).Starts es) (hp : p.kind = .operator) (hr : r ∈ es.getLast?)
    (hproper : r.Proper) (hsteady : r.kind.isSteady = true) : r.kind.asksForOperand = true := by
  have hmark : r.kind.movesUp = true → r.kind.asksForOperand = true := by
    intro hmoves
    cases hk : r.kind <;> simp_all [Kind.movesUp, Kind.isSteady, Kind.asksForOperand]
  rcases h r hr with hbehind | hbefore | ⟨hmoves, -⟩
  · cases r with
    | write t =>
      rcases Bool.or_eq_true _ _ ▸ hbehind with hopening | hword
      · rw [show (Stroke.write t).kind = .openParen from beq_iff_eq.1 hopening]
        rfl
      · exact asksForOperand_of_isClauseWord hword
    | glue t =>
      rw [show (Stroke.glue t).kind = .openParen from beq_iff_eq.1 hbehind]
      rfl
    | mark kind text => exact hmark hproper
    | comment c =>
      have hcomment : c.token.isComment = true := hproper
      have hkind : c.token.kind.isSteady = true := hsteady
      cases hk : c.token.kind <;> simp_all [Token.isComment, Kind.isSteady]
  · simp [Stroke.allowsBefore, Token.isKeyword, hp] at hbefore
  · exact hmark hmoves

/-- Where an operator is written, only signs are read as unary, and these where they are so in the
query. -/
lemma Page.Tip.isUnary_ready {page : Page} {es rest : List Stroke} {p : Token}
    {before : Option Kind} (h : page.Tip es (.write p :: rest)) (hp : p.kind = .operator)
    (hbefore : es.getLast?.map Stroke.kind = before) (hproper : ∀ s ∈ es, s.Proper) :
    ∃ l ls, page.ready.lines = l :: ls ∧ page.ready.fresh = none ∧ l.note = none ∧
      (isUnary l.last p = true → p.isSign = true) ∧
      ((∀ k ∈ before, k.isSteady = true) →
        isUnary l.last p = (p.isSign && before.all Kind.asksForOperand)) := by
  have hsign : ∀ trace, isUnary trace p = true → p.isSign = true := by
    intro trace hunary
    rw [isUnary_eq] at hunary
    exact (Bool.and_eq_true_iff.1 hunary).1
  rcases page.ready_eq with ⟨indent, hready, hstart⟩ | ⟨hready, hfresh, l, ls, hl, hopen⟩
  · refine ⟨.empty indent, page.lines, by rw [hready]; rfl, by rw [hready]; rfl, rfl, hsign _, ?_⟩
    intro hsteady
    have hasks : before.all Kind.asksForOperand = true := by
      rw [← hbefore, Option.all_eq_true]
      intro k hk
      obtain ⟨r, hr, rfl⟩ := Option.map_eq_some_iff.1 hk
      exact Stroke.asksForOperand_of_starts (h.starts hstart) hp hr
        (hproper r (List.mem_of_getLast? hr)) (hsteady _ (hbefore ▸ hk))
    rw [isUnary_eq, hasks]
    rfl
  · obtain ⟨es', s, τ, rfl, hlast, htraces⟩ := h.trace l ls hl hopen
    have hkind : before = some τ.kind := by
      rw [← hbefore, htraces.kind]
      simp
    have hnote : l.note = none := by
      simp only [Line.isClosed, Bool.or_eq_false_iff] at hopen
      simpa using hopen.1
    refine ⟨l, ls, by rw [hready, hl], by rw [hready, hfresh], hnote, hsign _, fun _ => ?_⟩
    rw [isUnary_eq, hlast, hkind]
    rfl

/-! ## Operators side by side -/

/-- Operators side by side are strokes side by side. -/
lemma exists_strokes_of_operators {tokens front back : List Token} {p q : Token}
    {all : List Stroke} (hall : Settled ((words tokens).map Word.stroke) all)
    (hsplit : tokens = front ++ p :: q :: back) (hp : p.kind = .operator)
    (hq : q.kind = .operator) :
    ∃ es rest, all = es ++ .write p :: .write q :: rest ∧
      es.map Stroke.kind = (front.filter (·.kind != .blank)).map Token.kind := by
  have hsettles : ∀ {w : Word} {s : Stroke}, Settles w.stroke s → w.token.kind = .operator →
      s = .write w.token := by
    intro w s h hw
    have hstroke : w.stroke = .write w.token := by
      simp [Word.stroke, Token.isComment, hw]
    rw [hstroke] at h
    cases h with
    | refl => rfl
    | mark => simp_all
    | glue => simp_all
  have htokens : (words tokens).map Word.token =
      front.filter (·.kind != .blank) ++ p :: q :: back.filter (·.kind != .blank) := by
    rw [words, map_token_wordsOf, hsplit]
    simp [hp, hq]
  obtain ⟨ws, vs, hwords, hws, hvs⟩ := List.map_eq_append_iff.1 htokens
  obtain ⟨w, us, rfl, rfl, hus⟩ := List.map_eq_cons_iff.1 hvs
  obtain ⟨v, us, rfl, rfl, -⟩ := List.map_eq_cons_iff.1 hus
  rw [hwords, List.map_append, List.map_cons, List.map_cons] at hall
  obtain ⟨es, rest, rfl, hes, hrest⟩ := exists_append_of_forall₂ hall
  obtain ⟨s, behind, hs, hbehind, rfl⟩ := List.forall₂_cons_left_iff.1 hrest
  obtain ⟨r, rest, hr, -, rfl⟩ := List.forall₂_cons_left_iff.1 hbehind
  refine ⟨es, rest, by rw [hsettles hs hp, hsettles hr hq], ?_⟩
  rw [← hws, List.map_map, ← List.forall₂_eq_eq_eq, List.forall₂_map_left_iff,
    List.forall₂_map_right_iff]
  rw [List.forall₂_map_left_iff] at hes
  exact hes.flip.imp fun s w hws => hws.kind_text.1.trans w.kind_stroke

/-- An operator and the one behind it go on one line, whatever moves stand between them. -/
lemma Lawful.lines_put {case : KeywordCase} {page : Page} {between : List Move}
    {es rest : List Stroke} {p q : Token} {l : Line} {ls : List Line}
    (h : Lawful case (page.step case (.put (.write p))) (es ++ [.write p]) between
      (.write q :: rest))
    (hquiet : strokesOf between = []) (hlines : page.ready.lines = l :: ls)
    (hfresh : page.ready.fresh = none) (hnote : l.note = none) (hp : p.kind = .operator)
    (hq : q.kind = .operator) :
    (((page.step case (.put (.write p))).run case between).step case (.put (.write q))).lines =
      writeAll case [p, q] l :: ls := by
  have hbehind : (Stroke.write p).allowsBehind = false := by
    simp [Stroke.allowsBehind, Token.isClauseWord, Token.spellsAny, Token.spells, hp]
  have hbefore : (Stroke.write q).allowsBefore = false := by
    simp [Stroke.allowsBefore, Token.isKeyword, hq]
  have hwritten : (page.step case (.put (.write p))).lines = l.write case p :: ls ∧
      (page.step case (.put (.write p))).fresh = none := by
    simp [Page.step, Page.put, hp, Kind.movesUp, Page.write, Page.onLast, hlines, hfresh]
  obtain ⟨hsame, hsamefresh⟩ := h.lines_run hquiet hbehind hbefore
  rw [hwritten.1] at hsame
  rw [hwritten.2] at hsamefresh
  generalize (page.step case (.put (.write p))).run case between = page' at hsame hsamefresh
  have hready : page'.ready = page' := by
    simp [Page.ready, hsame, hsamefresh, Line.isClosed, Line.write, hnote]
  simp [Page.step, Page.put, hq, Kind.movesUp, Page.write, Page.onLast, hready, hsame, writeAll]

/-- Operators side by side are written on one line. -/
lemma Lawful.exists_line {case : KeywordCase} {ms : List Move} {es rest : List Stroke}
    {p q : Token} (h : Lawful case .empty [] ms [])
    (hstrokes : strokesOf ms = es ++ .write p :: .write q :: rest)
    (hproper : ∀ s ∈ strokesOf ms, s.Proper) (hp : p.kind = .operator) (hq : q.kind = .operator) :
    ∃ front l ls, strokesOf front = es ∧ (Page.empty.run case front).ready.lines = l :: ls ∧
      l.note = none ∧ (Page.empty.run case ms).Keeps (writeAll case [p, q] l) ls ∧
      (isUnary l.last p = true → p.isSign = true) ∧
      ((∀ s ∈ es.getLast?, s.kind.isSteady = true) → isUnary l.last p =
        (p.isSign && (es.getLast?.map Stroke.kind).all Kind.asksForOperand)) := by
  obtain ⟨front, ns, rfl, rfl, hns⟩ := exists_moves_split hstrokes
  rw [← List.nil_append (Stroke.write q :: rest)] at hns
  obtain ⟨between, back, rfl, hquiet, rfl⟩ := exists_moves_split hns
  obtain ⟨hfront, hrest⟩ := h.of_append
  -- the page on which the former is written
  have hlaid : (Page.empty.run case front).Laid case (strokesOf front ++ .write p :: .write q ::
      strokesOf back) ([] ++ strokesOf front) (.write p :: .write q :: strokesOf back) := by
    refine Page.Laid.run (.empty case _) ?_ fun s hs => hproper s (by simp [hs])
    simpa [hquiet] using hfront
  obtain ⟨l, ls, hlines, hfresh, hnote, hsign, hunary⟩ :=
    hlaid.tip.isUnary_ready hp rfl fun s hs => hproper s (by simp_all)
  -- the latter goes on the same line
  have hbetween : Lawful case ((Page.empty.run case front).step case (.put (.write p)))
      (strokesOf front ++ [.write p]) between (.write q :: strokesOf back) := by
    simpa [show strokesOf [] = [] from rfl] using hrest.2.of_append.1
  have hboth := hbetween.lines_put hquiet hlines hfresh hnote hp hq
  refine ⟨front, l, ls, rfl, hlines, hnote, ?_, hsign, fun hsteady => hunary fun k hk => ?_⟩
  · rw [Page.run_append, ← List.singleton_append, Page.run_append, Page.run_append,
      ← List.singleton_append, Page.run_append]
    exact (Page.Keeps.of_lines hboth).run (writeAll_pieces_ne_nil case (by simp) l) back
  · obtain ⟨s, hs, rfl⟩ := Option.map_eq_some_iff.1 hk
    exact hsteady s hs

/-- Parts of two operators side by side. -/
lemma writtenParts_operators (case : KeywordCase) {l : Line} {p q : Token}
    (hp : p.kind = .operator) (hq : q.kind = .operator) (htouch : p.stop = q.offset)
    (hcomment : opensComment (.after l.last p) q = false) :
    (if p.isBoundTo q || isUnary l.last p then [.piece p, .piece q]
      else [.piece p, .blank [' '], .piece q]) <:+: writtenParts case [p, q] l := by
  have hspace : needsSpace (.after l.last p) q = !(p.isBoundTo q || isUnary l.last p) :=
    needsSpace_operators hp hq rfl rfl (congrArg some htouch) hcomment
  refine List.IsSuffix.isInfix ?_
  rw [writtenParts, writtenParts, writtenParts,
    show (l.write case p).last = some (.after l.last p) from rfl, Option.any_some, hspace]
  cases p.isBoundTo q || isUnary l.last p
  · exact List.suffix_append _ _
  · exact List.suffix_append _ _

/-- The kind of the last of some tokens, blanks aside. -/
def lastKind (tokens : List Token) : Option Kind :=
  (tokens.filter (·.kind != .blank)).getLast?.map Token.kind

/-- **Operators that touch.**  They stay together where the one is bound to the other, or the former
is a unary sign; a space comes between any others.  A sign is unary where an operand is asked for,
and only there, unless it comes behind a comment, a closing parenthesis or a semicolon. -/
theorem formatQuery_operators {query : Text} {dialect : Dialect} {script : Script}
    (h : parse query dialect = .ok script) (style : Style) :
    ∃ tokens out parts, tokenize query = .ok tokens ∧
      formatQuery style dialect query = .ok out ∧
      Lossless style.keywordCase query tokens out parts ∧
      ∀ front p q back, tokens = front ++ p :: q :: back →
        p.kind = .operator → q.kind = .operator →
        ∃ unary : Bool, (if p.isBoundTo q || unary then [.piece p, .piece q]
            else [.piece p, .blank [' '], .piece q]) <:+: parts ∧
          (unary = true → p.isSign = true) ∧
          ((∀ k ∈ lastKind front, k.isSteady = true) →
            unary = (p.isSign && (lastKind front).all Kind.asksForOperand)) := by
  obtain ⟨tokens, parts, htokens, hout, hlossless, hpresents⟩ := exists_presents_of_parse h style
  obtain ⟨tokens', ms, htokens', hsettled, -, hpage, hlawful⟩ := exists_moves_of_parse h style
  obtain rfl := Except.ok.inj (htokens.symm.trans htokens')
  refine ⟨tokens, _, parts, htokens, hout, hlossless, ?_⟩
  intro front p q back hsplit hp hq
  obtain ⟨es, rest, hstrokes, hkinds⟩ := exists_strokes_of_operators hsettled hsplit hp hq
  obtain ⟨moves, l, ls, rfl, hready, hnote, hkeeps, hsign, hunary⟩ :=
    hlawful.exists_line hstrokes (proper_of_settled hsettled) hp hq
  have hlast : lastKind front = (strokesOf moves).getLast?.map Stroke.kind := by
    rw [lastKind, ← List.getLast?_map, ← List.getLast?_map, hkinds]
  rw [hstrokes] at hsettled
  rw [← hpage] at hkeeps
  have hsettled' : Settled ((words tokens).map Word.stroke)
      (strokesOf moves ++ ([p, q].map .write ++ rest)) := hsettled
  obtain ⟨above, below, rfl, -⟩ := hpresents.exists_stretch hsettled' hready hnote hkeeps (by simp)
    (by simp [hp, Kind.movesUp]) (by simp [Token.isComment, hp, hq])
  refine ⟨isUnary l.last p, ?_, hsign, ?_⟩
  · have htouch : p.stop = q.offset := stop_eq_of_placed (hsplit ▸ placed_of_tokenize htokens)
    refine (writtenParts_operators style.keywordCase hp hq htouch
      (not_opensComment_of_tokenize htokens hsplit hp rfl)).trans ?_
    exact ⟨above, below, by simp⟩
  · intro hsteady
    rw [hlast] at hsteady ⊢
    exact hunary fun s hs => hsteady _ (Option.mem_map_of_mem _ hs)

/-- A sign in front of an operator, a cast of an element, and an ampersand behind another. -/
theorem formatQuery_operators_element :
    ∃ tokens out parts, formatQuery {} .native "select -@a[1]::b && c" = .ok out ∧
      Lossless .upper "select -@a[1]::b && c" tokens out parts ∧
      [.piece ⟨.operator, "-", 7⟩, .piece ⟨.operator, "@", 8⟩] <:+: parts ∧
      [.piece ⟨.operator, "]", 12⟩, .piece ⟨.operator, "::", 13⟩] <:+: parts ∧
      [.piece ⟨.operator, "&", 17⟩, .blank [' '], .piece ⟨.operator, "&", 18⟩] <:+: parts := by
  have htokens : tokenize "select -@a[1]::b && c" =
      .ok [⟨.keyword .SELECT, "select", 0⟩, ⟨.blank, " ", 6⟩, ⟨.operator, "-", 7⟩,
        ⟨.operator, "@", 8⟩, ⟨.identifier, "a", 9⟩, ⟨.operator, "[", 10⟩, ⟨.number, "1", 11⟩,
        ⟨.operator, "]", 12⟩, ⟨.operator, "::", 13⟩, ⟨.identifier, "b", 15⟩, ⟨.blank, " ", 16⟩,
        ⟨.operator, "&", 17⟩, ⟨.operator, "&", 18⟩, ⟨.blank, " ", 19⟩,
        ⟨.identifier, "c", 20⟩] := by decide +kernel
  have hok : (parse "select -@a[1]::b && c" .native).isOk = true := by decide +kernel
  cases hparse : parse "select -@a[1]::b && c" .native with
  | error f =>
    rw [hparse] at hok
    cases hok
  | ok script =>
    obtain ⟨tokens, out, parts, htokens', hout, hlossless, hparts⟩ :=
      formatQuery_operators hparse {}
    have hlist := Except.ok.inj (htokens.symm.trans htokens')
    refine ⟨tokens, out, parts, hout, hlossless, ?_, ?_, ?_⟩
    · obtain ⟨unary, hinfix, -, hunary⟩ := hparts (tokens.take 2) ⟨.operator, "-", 7⟩
        ⟨.operator, "@", 8⟩ (tokens.drop 4) (by rw [← hlist]; rfl) rfl rfl
      rw [← hlist] at hunary
      obtain rfl : unary = true := hunary (by decide)
      exact hinfix
    · obtain ⟨unary, hinfix, -⟩ := hparts (tokens.take 7) ⟨.operator, "]", 12⟩
        ⟨.operator, "::", 13⟩ (tokens.drop 9) (by rw [← hlist]; rfl) rfl rfl
      exact hinfix
    · obtain ⟨unary, hinfix, hsign, -⟩ := hparts (tokens.take 11) ⟨.operator, "&", 17⟩
        ⟨.operator, "&", 18⟩ (tokens.drop 13) (by rw [← hlist]; rfl) rfl rfl
      obtain rfl : unary = false := by
        cases unary with
        | false => rfl
        | true => cases hsign rfl
      exact hinfix

/-- Two ampersands that touch in the query come apart. -/
theorem not_formatQuery_operators :
    (tokenize "select a && b").map (fun ts => decide
      ([⟨.operator, "&", 9⟩, ⟨.operator, "&", 10⟩] <:+: ts)) = .ok true ∧
    formatQuery {} .native "select a && b" = .ok "SELECT a & & b" := by
  decide +kernel

end SqlInlay.Sql
