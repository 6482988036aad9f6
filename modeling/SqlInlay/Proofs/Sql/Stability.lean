import SqlInlay.Proofs.Sql.Charting
import SqlInlay.Proofs.Sql.Words

/-!
# What layout reads of the blanks

A query is laid out from its tokens, and of the blanks between them layout asks two things only:
whether a comment is the first thing on its line, and whether an opening parenthesis, an opening
bracket or a string touches the token before it.  `Word.footprint` is all of a token that counts,
and `formatQuery_stable` says that queries with the same footprints are laid out in the same way.
Indentation, the number of blanks and where lines end are nothing to a layout otherwise.

**Twins.**  More generally, `formatQuery_twin_of_segment` is about any two queries whose words
resemble each other, are spelled the same, and need spaces in the same places.

* Both are segmented alike, or the parentheses of neither balance (`segment_twin`): the second
  script is the first one, recast.
* Both scripts are printed by the same moves (`Script.charted_layOut`), so the pages are alike and
  read the same (`Page.render_eq_of_alike`).

This is also how the layout of a layout is compared with the layout itself, where spaces are needed
in the same places for a different reason.

**Footprints.**  What is left to show of queries with the same footprints is that recasting agrees
on the script: neighbours touch in both texts or in neither, where that matters.  For neighbouring
strokes this is asked of the words behind them (`agrees_of_footprints`).
-/

namespace SqlInlay.Sql

/-- The outcomes of two queries agree: the same text, or parentheses that do not balance.  The
offset of the failure is left open. -/
inductive SameOutcome : Except Failure Text → Except Failure Text → Prop
  | ok (out : Text) : SameOutcome (.ok out) (.ok out)
  | unbalanced (offset offset' : Nat) (cause : Imbalance) :
    SameOutcome (.error (.structural offset cause)) (.error (.structural offset' cause))

/-! ## Twins

The outcome may be a failure, for parentheses that do not balance.  Then the causes are the same,
but the offsets need not be, as blanks count in them.
-/

/-- Lines with equal pieces read the same. -/
lemma Line.render_eq_of_alike {l m : Line} (h : l.Alike .eq m) : l.render = m.render := by
  have hpieces : l.pieces = m.pieces := by
    refine List.forall₂_eq_eq_eq ▸ h.pieces.imp fun p q hpq => ?_
    cases hpq with
    | gap => rfl
    | code hxy => exact congrArg Piece.code hxy
    | remark x => rfl
  rw [Line.render, Line.render, Line.code, Line.code, h.indent, hpieces, h.note]

/-- Pages with equal lines read the same. -/
lemma Page.render_eq_of_alike {p q : Page} (h : List.Forall₂ (Line.Alike .eq) p.lines q.lines) :
    p.render = q.render := by
  have hlines : p.lines.map Line.render = q.lines.map Line.render := by
    refine List.forall₂_eq_eq_eq ▸ List.forall₂_map_left_iff.2 (List.forall₂_map_right_iff.2 ?_)
    exact h.imp fun _ _ => Line.render_eq_of_alike
  rw [Page.render, Page.render, List.map_reverse, List.map_reverse, hlines]

section Twins

variable {query query' : Text} {tokens tokens' : List Token}

/-- The tokens of a query are sound. -/
lemma sound_of_tokenize (h : tokenize query = .ok tokens) :
    ∀ t ∈ tokens, t.isComment = false → t.Sound := fun t ht hcode =>
  have hlexed := lexed_of_tokenize h t ht
  ⟨hcode, hlexed.comma, hlexed.semicolon⟩

/-- Segmentation of words that resemble each other: the second script is the first, recast, or the
parentheses of neither balance.  Both read nothing but their leaves. -/
lemma segment_twin (dialect : Dialect) (hresemble : Resemble (words tokens) (words tokens'))
    (hnodup : ((words tokens).map Word.token).Nodup) :
    (∃ script, segment dialect tokens = .ok script ∧ segment dialect tokens' =
      .ok (recastStatements (.ofWords (words tokens) (words tokens')) script)) ∨
    ∃ offset offset' cause, segment dialect tokens = .error (.structural offset cause) ∧
      segment dialect tokens' = .error (.structural offset' cause) := by
  have hleaves := hresemble.leaves_eq hnodup
  have hnest := @nestLeaves_recast (.ofWords (words tokens) (words tokens')) dialect [] []
    ((words tokens).map Word.leaf)
  simp only [recastNodes, List.map_nil] at hnest
  simp only [segment, nestFrom_eq, leavesOf_eq true false]
  rw [← words, ← words, hleaves, hnest]
  cases nestLeaves dialect [] [] ((words tokens).map Word.leaf) with
  | ok nodes => exact .inl ⟨_, rfl, congrArg Except.ok (statementsOf_recast dialect nodes)⟩
  | error fault => exact .inr ⟨_, _, _, rfl, rfl⟩

/-- **Twins are laid out in the same way.**  Their words resemble each other and are spelled the
same, and recasting the ones to the others agrees on the script. -/
theorem formatQuery_twin_of_segment (style : Style) (dialect : Dialect)
    (h : tokenize query = .ok tokens) (h' : tokenize query' = .ok tokens')
    (hresemble : Resemble (words tokens) (words tokens'))
    (hspelling : List.Forall₂ (fun w v => Line.spelling style.keywordCase w.token =
      Line.spelling style.keywordCase v.token) (words tokens) (words tokens'))
    (hagrees : ∀ script, segment dialect tokens = .ok script →
      Settled ((words tokens).map Word.stroke) (statementsStrokes script) →
      Agrees (.ofWords (words tokens) (words tokens')) (statementsStrokes script)) :
    SameOutcome (formatQuery style dialect query) (formatQuery style dialect query') := by
  have hnodup := nodup_words h
  have heq := hresemble.recasting_eq hnodup
  have hparse : parse query dialect = segment dialect tokens := by rw [parse, h]; rfl
  have hparse' : parse query' dialect = segment dialect tokens' := by rw [parse, h']; rfl
  rw [formatQuery, formatQuery, hparse, hparse']
  rcases segment_twin dialect hresemble hnodup with
    ⟨script, hscript, hscript'⟩ | ⟨offset, offset', cause, hfault, hfault'⟩
  · rw [hscript, hscript']
    generalize Recasting.ofWords (words tokens) (words tokens') = f at heq hagrees
    obtain ⟨hsound, hsettled⟩ := divide_segment hscript (sound_of_tokenize h)
    rw [leavesOf_eq true false, nodesStrokes_leaves, ← words] at hsettled
    have hspelled : ∀ w ∈ words tokens, Line.spelling style.keywordCase w.token =
        Line.spelling style.keywordCase (f w.token) := by
      intro w hw
      obtain ⟨v, -, hwv, hspelled⟩ :=
        exists_of_forall₂ (List.Forall₂.mp (fun _ _ => And.intro) heq hspelling) hw
      rw [hwv, hspelled]
    let P : Pair :=
      { recasting := f
        likeness := .eq
        style := style
        style' := style
        all := statementsStrokes script
        indentWidth := rfl
        maxLineWidth := rfl
        oneJoinPerLine := rfl
        spelling := fun t ht => by
          obtain ⟨w, hw, hwt⟩ := exists_word_of_settled hsettled ht
          obtain rfl := Word.token_eq_of_settles hwt (.inl rfl)
          exact hspelled w hw
        text := fun s hs hwritten => by
          obtain ⟨w, -, hws⟩ := exists_word_of_settled hsettled hs
          exact Word.text_recast_of_settles f hws hwritten
        agrees := hagrees script hscript hsettled }
    have hlines := ((Script.charted_layOut P hsound rfl).alike (.empty P) (by simp)).lines
    have hrender := Page.render_eq_of_alike hlines
    rw [Except.map, Except.map, Script.format, Script.format, hrender]
    exact .ok _
  · rw [hfault, hfault']
    exact .unbalanced offset offset' cause

/-- Twins by their words: recasting agrees on whatever strokes these become, so the script need not
be known. -/
theorem formatQuery_twin (style : Style) (dialect : Dialect) (h : tokenize query = .ok tokens)
    (h' : tokenize query' = .ok tokens') (hresemble : Resemble (words tokens) (words tokens'))
    (hspelling : List.Forall₂ (fun w v => Line.spelling style.keywordCase w.token =
      Line.spelling style.keywordCase v.token) (words tokens) (words tokens'))
    (hagrees : ∀ all, Settled ((words tokens).map Word.stroke) all →
      Agrees (.ofWords (words tokens) (words tokens')) all) :
    SameOutcome (formatQuery style dialect query) (formatQuery style dialect query') :=
  formatQuery_twin_of_segment style dialect h h' hresemble hspelling
    fun _ _ hsettled => hagrees _ hsettled

end Twins

/-! ## Footprints

The bit of a footprint means one thing for a comment and another for a token that binds to what is
in front of it; of any other token nothing is kept but its kind and text.
-/

/-- What layout may read of a word: its kind, its text, and one bit of what stands in front of
it. -/
structure Footprint where
  kind : Kind
  text : Text
  /-- A comment is the first thing on its line; a parenthesis, bracket or string touches the token
  before it. -/
  bit : Bool
deriving DecidableEq, Repr

/-- What layout may read of a word. -/
def Word.footprint (w : Word) : Footprint :=
  ⟨w.token.kind, w.token.text,
    if w.token.isComment then w.fresh else w.token.bindsLeft && w.touching⟩

/-- What layout may read of the tokens of a query. -/
def footprints (tokens : List Token) : List Footprint := (words tokens).map Word.footprint

namespace Word

variable {w v : Word}

/-- Words with the same footprint resemble each other. -/
lemma resembles_of_footprint (h : w.footprint = v.footprint) :
    w.token.resembles v.token = true ∧ (w.token.isComment = true → v.fresh = w.fresh) := by
  obtain ⟨hkind, htext, hbit⟩ := Footprint.mk.inj h
  have hcomment : v.token.isComment = w.token.isComment := by simp [Token.isComment, hkind]
  refine ⟨Token.resembles_iff.2 ⟨hkind.symm, by rw [htext], fun _ => htext.symm⟩, fun hw => ?_⟩
  simpa [hcomment, hw] using hbit.symm

/-- Words with the same footprint are spelled the same. -/
lemma spelling_of_footprint (h : w.footprint = v.footprint) (case : KeywordCase) :
    Line.spelling case w.token = Line.spelling case v.token := by
  obtain ⟨hkind, htext, -⟩ := Footprint.mk.inj h
  rw [Line.spelling, Line.spelling, hkind, htext]

/-- Words with the same footprint touch the token before them or not, where that matters. -/
lemma touching_of_footprint (h : w.footprint = v.footprint) (hbinds : w.token.bindsLeft = true) :
    w.touching = v.touching := by
  have hcode := Token.isComment_of_bindsLeft hbinds
  obtain ⟨hkind, htext, hbit⟩ := Footprint.mk.inj h
  have hcode' : v.token.isComment = false := by simpa [Token.isComment, hkind] using hcode
  have hbinds' : v.token.bindsLeft = true := by simpa [Token.bindsLeft, hkind, htext] using hbinds
  simpa [hcode, hcode', hbinds, hbinds'] using hbit

end Word

section Stability

variable {query query' : Text} {tokens tokens' : List Token}

/-- Words with the same footprints, place by place. -/
lemma forall₂_footprint (h : footprints tokens = footprints tokens') :
    List.Forall₂ (fun w v : Word => w.footprint = v.footprint) (words tokens) (words tokens') := by
  have hmaps : List.Forall₂ Eq (footprints tokens) (footprints tokens') :=
    h ▸ List.forall₂_refl _
  exact List.forall₂_map_right_iff.1 (List.forall₂_map_left_iff.1 hmaps)

/-- Recasting words to words with the same footprints agrees: neighbours touch in both texts or in
neither. -/
lemma agrees_of_footprints (h : tokenize query = .ok tokens) (h' : tokenize query' = .ok tokens')
    (hfootprints : footprints tokens = footprints tokens') {all : List Stroke}
    (hall : Settled ((words tokens).map Word.stroke) all) :
    Agrees (.ofWords (words tokens) (words tokens')) all := by
  have hprints := forall₂_footprint hfootprints
  have hresemble : Resemble (words tokens) (words tokens') :=
    hprints.imp fun _ _ => Word.resembles_of_footprint
  have heq := hresemble.recasting_eq (nodup_words h)
  generalize Recasting.ofWords (words tokens) (words tokens') = f at heq
  refine agrees_of_touching fun es s t u rest unary hsplit hs _ => .inl fun hbinds => ?_
  obtain ⟨front, back, a, b, hwords, -, ha, hb⟩ := exists_words_of_settled hall hsplit
  obtain rfl : a.token = t := Word.token_eq_of_settles ha hs
  obtain rfl : b.token = u := Word.token_eq_of_settles hb (.inl rfl)
  -- the counterparts of the two neighbours are neighbours as well
  have hboth := List.Forall₂.mp (fun _ _ => And.intro) hprints heq
  obtain ⟨front', back', a', b', hwords', -, ha', hb'⟩ :=
    exists_neighbours_of_forall₂ hboth.flip hwords
  have hchain := isChain_words h
  have hchain' := isChain_words h'
  rw [hwords] at hchain
  rw [hwords'] at hchain'
  have hab : Word.Neighbours a b := (List.isChain_append.1 hchain).2.1.rel
  have hab' : Word.Neighbours a' b' := (List.isChain_append.1 hchain').2.1.rel
  rw [ha'.2, hb'.2]
  exact hab.symm.trans ((Bool.eq_iff_iff.1 (Word.touching_of_footprint hb'.1 hbinds)).trans hab')

/-- **Layout reads footprints.**  Queries whose tokens have the same footprints are laid out in the
same way, or their parentheses fail to balance in the same way. -/
theorem formatQuery_stable (style : Style) (dialect : Dialect) (h : tokenize query = .ok tokens)
    (h' : tokenize query' = .ok tokens') (hfootprints : footprints tokens = footprints tokens') :
    SameOutcome (formatQuery style dialect query) (formatQuery style dialect query') := by
  have hprints := forall₂_footprint hfootprints
  exact formatQuery_twin style dialect h h'
    (hprints.imp fun _ _ => Word.resembles_of_footprint)
    (hprints.imp fun _ _ hwv => Word.spelling_of_footprint hwv style.keywordCase)
    fun _ => agrees_of_footprints h h' hfootprints

end Stability

/-- Line feeds between tokens are read as spaces, but not in front of a call's parenthesis. -/
theorem formatQuery_stable_line_feeds :
    SameOutcome (formatQuery {} .jpql "select f(a) /* n */ , b from t")
      (formatQuery {} .jpql "
select f( a )	/* n */
,b from

t ") := by
  have hsame : (tokenize "select f(a) /* n */ , b from t").map footprints =
      (tokenize "
select f( a )	/* n */
,b from

t ").map footprints := by decide +kernel
  have hok : (tokenize "select f(a) /* n */ , b from t").isOk = true := by decide +kernel
  cases h : tokenize "select f(a) /* n */ , b from t" with
  | error f =>
    rw [h] at hok
    exact absurd hok (by simp [Except.isOk, Except.toBool])
  | ok tokens =>
    rw [h] at hsame
    cases h' : tokenize "
select f( a )	/* n */
,b from

t " with
    | error f =>
      rw [h'] at hsame
      cases hsame
    | ok tokens' =>
      rw [h'] at hsame
      exact formatQuery_stable {} .jpql h h' (Except.ok.inj hsame)

end SqlInlay.Sql
