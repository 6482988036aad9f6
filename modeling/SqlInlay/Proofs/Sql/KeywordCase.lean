import SqlInlay.Proofs.Sql.Letters
import SqlInlay.Proofs.Sql.Stability

/-!
# The case of keywords and the layout

The case in which keywords are written has no part in the layout.  Two styles that differ in it
alone lay a query out on the same lines, with the same pieces but for the spelling of its keywords,
and a style that fixes the case does not look at the one that the query has.  Neither is obvious:
layout measures what it has written, and a word might be longer in one case than in another.

**Recasting in place.**  Both come from `Script.alike_layOut_recast`: a recasting that leaves tokens
where they stand, printed in another case, gives lines alike.  For two styles the recasting is the
identity; for two spellings of a query it is `Recasting.capitals`, under which their tokens become
the same.  Such a recasting agrees about every space, since a space depends on where tokens stand
and on the kinds and letters that recasting keeps (`agrees_of_stop`).

**Pieces.**  `Respelled` compares two texts piece by piece.  It is closed under putting texts
together and under trimming, so what holds of the lines of two pages holds of their texts
(`Respelled.of_page`).

**Two spellings.**  `exists_tokenize_respelled` says that a query with its keywords in another case
has the same tokens but for these; by `format_capitals` a style that fixes the case lays both out as
it does the query with its keywords in capitals.
-/

namespace SqlInlay.Sql

open SqlInlay.Text

/-! ## Spelling keywords -/

/-- A keyword keeps its letters in every case. -/
lemma asciiUpper_apply {text : Text} {word : Keyword} (h : Keyword.ofWord? text = some word)
    (case : KeywordCase) : asciiUpper (case.apply text) = asciiUpper text := by
  have hascii : ∀ c ∈ text, c.toNat < 0x80 := fun c hc =>
    toNat_lt_of_isAlpha ((isAlpha_of_ofWord? h).2 c hc)
  cases case with
  | preserve => rfl
  | upper =>
    rw [KeywordCase.apply, toUpper_of_ascii hascii]
    exact asciiUpper_asciiUpper text
  | lower =>
    have hlower : Char.toUpper ∘ Char.toLower = Char.toUpper :=
      funext fun c => by
        by_cases hc : c.toNat < 0x80
        · exact of_decide_eq_true (forall_ascii
            (p := fun c => decide (c.toLower.toUpper = c.toUpper)) (by decide) hc)
        · have hsame : c.toLower = c := by
            refine dif_neg fun hupper => hc ?_
            simp only [UInt32.le_iff_toNat_le] at hupper
            exact Nat.lt_of_le_of_lt hupper.2 (by decide)
          rw [Function.comp_apply, hsame]
    rw [KeywordCase.apply, toLower_of_ascii hascii, asciiUpper, List.map_map, hlower]
    rfl

/-- A fixed case does not look at the case of a keyword. -/
lemma apply_asciiUpper {text : Text} {word : Keyword} (h : Keyword.ofWord? text = some word)
    {case : KeywordCase} (hcase : case ≠ .preserve) :
    case.apply (asciiUpper text) = case.apply text := by
  have hascii : ∀ c ∈ text, c.toNat < 0x80 := fun c hc =>
    toNat_lt_of_isAlpha ((isAlpha_of_ofWord? h).2 c hc)
  have hupper : ∀ c ∈ asciiUpper text, c.toNat < 0x80 := by
    have hofWord : Keyword.ofWord? (asciiUpper text) = some word := by rw [ofWord?_asciiUpper, h]
    exact fun c hc => toNat_lt_of_isAlpha ((isAlpha_of_ofWord? hofWord).2 c hc)
  cases case with
  | preserve => exact absurd rfl hcase
  | upper =>
    rw [KeywordCase.apply, KeywordCase.apply, toUpper_of_ascii hascii, toUpper_of_ascii hupper]
    exact asciiUpper_asciiUpper text
  | lower =>
    have hlower : Char.toLower ∘ Char.toUpper = Char.toLower :=
      funext fun c => apply_toUpper (p := Char.toLower) (by decide) c
    rw [KeywordCase.apply, KeywordCase.apply, toLower_of_ascii hascii, toLower_of_ascii hupper,
      asciiUpper, List.map_map, hlower]

/-! ## Recasting in place -/

section Self

variable {f : Recasting}

lemma Comment.recast_self (h : ∀ t, f t = t) (c : Comment) : c.recast f = c := by
  rw [Comment.recast, h]

lemma map_recast_self (h : ∀ t, f t = t) (comments : List Comment) :
    comments.map (·.recast f) = comments :=
  (List.map_congr_left fun c _ => c.recast_self h).trans (List.map_id _)

lemma map_self (h : ∀ t, f t = t) (tokens : List Token) : tokens.map f = tokens :=
  (List.map_congr_left fun t _ => h t).trans (List.map_id _)

mutual

/-- Recasting every token to itself changes nothing. -/
lemma Node.recast_self (h : ∀ t, f t = t) (n : Node) : n.recast f = n := by
  match n with
  | .token t => rw [Node.recast, h]
  | .comment c => rw [Node.recast, c.recast_self h]
  | .query opening script closing => rw [Node.recast, h, h, recastStatements_self h script]
  | .list opening operands closing => rw [Node.recast, h, h, recastItems_self h operands]

lemma recastNodes_self (h : ∀ t, f t = t) (ns : List Node) : recastNodes f ns = ns := by
  match ns with
  | [] => rfl
  | n :: ns => rw [recastNodes, n.recast_self h, recastNodes_self h ns]

lemma recastItems_self (h : ∀ t, f t = t) (is : List (Item Node)) : recastItems f is = is := by
  match is with
  | [] => rfl
  | ⟨nodes, comma⟩ :: is => rw [recastItems, recastNodes_self h nodes, recastItems_self h is]

lemma recastBody_self (h : ∀ t, f t = t) (body : Body Node) : recastBody f body = body := by
  match body with
  | .items is => rw [recastBody, recastItems_self h is]
  | .construction ⟨new, typeName, opening, arguments, closing⟩ =>
    rw [recastBody, h, h, h, map_self h, recastItems_self h arguments]

lemma recastClauses_self (h : ∀ t, f t = t) (cs : List (Clause Node)) :
    recastClauses f cs = cs := by
  match cs with
  | [] => rfl
  | ⟨kind, keywords, leading, body, trailing⟩ :: cs =>
    rw [recastClauses, map_self h, map_recast_self h, map_recast_self h, recastBody_self h body,
      recastClauses_self h cs]

lemma recastStatements_self (h : ∀ t, f t = t) (ss : List (Statement Node)) :
    recastStatements f ss = ss := by
  match ss with
  | [] => rfl
  | ⟨clauses, terminated, trailing⟩ :: ss =>
    rw [recastStatements, recastClauses_self h clauses, map_recast_self h,
      recastStatements_self h ss]

end

end Self

/-- A recasting that leaves tokens where they are agrees about every space. -/
lemma agrees_of_stop {f : Recasting} (hoffset : ∀ t, (f t).offset = t.offset)
    (all : List Stroke) : Agrees f all := by
  have hstop : ∀ t, (f t).stop = t.stop := fun t => by
    rw [Token.stop, hoffset, ← bytes_asciiUpper, f.letters_eq, bytes_asciiUpper, Token.stop]
  exact agrees_of_touching fun _ _ t u _ _ _ _ _ => .inl fun _ => by rw [hstop, hoffset]

/-- The leaves of recast tokens are the leaves, recast. -/
lemma leavesOf_map (f : Recasting) (fresh : Bool) (tokens : List Token) :
    leavesOf fresh (tokens.map f) = recastNodes f (leavesOf fresh tokens) := by
  induction tokens generalizing fresh with
  | nil => rfl
  | cons t ts ih =>
    simp only [List.map_cons, leavesOf, f.kind, f.isComment]
    split
    · rename_i hblank
      rw [f.text_eq t (by simp [Token.isKeyword, hblank]), ih]
    · rw [recastNodes, ih]
      split <;> rfl

/-- Recast tokens are segmented to the script, recast, or refused at the same offset. -/
lemma segment_map (dialect : Dialect) {f : Recasting} (hoffset : ∀ t, (f t).offset = t.offset)
    (tokens : List Token) :
    segment dialect (tokens.map f) = (segment dialect tokens).map (recastStatements f) := by
  have hnest := @nestLeaves_recast f dialect [] [] (leavesOf true tokens)
  simp only [recastNodes, List.map_nil] at hnest
  simp only [segment, nestFrom_eq, leavesOf_map, hnest]
  cases nestLeaves dialect [] [] (leavesOf true tokens) with
  | ok nodes => exact congrArg Except.ok (statementsOf_recast dialect nodes)
  | error fault => simp [Except.map, Except.mapError, imbalance, hoffset]

/-- **Recasting in place** lays a script out on lines alike, if the two spellings of each of its
tokens are alike. -/
lemma Script.alike_layOut_recast {f : Recasting} (hoffset : ∀ t, (f t).offset = t.offset)
    (L : Likeness) {tokens : List Token} {dialect : Dialect} {script : Script}
    (hscript : segment dialect tokens = .ok script)
    (htokens : ∀ t ∈ tokens, t.isComment = false → t.Sound) (style : Style) (case : KeywordCase)
    (hlike : ∀ t ∈ tokens, L.like (Line.spelling style.keywordCase t) (Line.spelling case (f t))) :
    List.Forall₂ (Line.Alike L) (Script.layOut style script).lines
      (Script.layOut { style with keywordCase := case } (recastStatements f script)).lines := by
  obtain ⟨hsound, hsettled⟩ := divide_segment hscript htokens
  rw [leavesOf_eq true false, nodesStrokes_leaves, ← words] at hsettled
  let P : Pair :=
    { recasting := f
      likeness := L
      style := style
      style' := { style with keywordCase := case }
      all := statementsStrokes script
      indentWidth := rfl
      maxLineWidth := rfl
      oneJoinPerLine := rfl
      spelling := fun t ht => by
        obtain ⟨w, hw, hwt⟩ := exists_word_of_settled hsettled ht
        obtain rfl := Word.token_eq_of_settles hwt (.inl rfl)
        exact hlike _ (of_mem_words hw).1
      text := fun s hs hwritten => by
        obtain ⟨w, -, hws⟩ := exists_word_of_settled hsettled hs
        exact Word.text_recast_of_settles f hws hwritten
      agrees := agrees_of_stop hoffset _ }
  exact ((Script.charted_layOut P hsound rfl).alike (.empty P) (by simp)).lines

/-! ## Texts respelled -/

/-- The two spellings of a keyword among some tokens, one for each case.  They differ in the case of
letters and are of the same length. -/
def SpellsKeyword (tokens : List Token) (case case' : KeywordCase) (x y : Text) : Prop :=
  ∃ t ∈ tokens, t.isKeyword = true ∧ x = case.apply t.text ∧ y = case'.apply t.text

/-- Two texts are made of the same pieces, but where the one has a keyword of some tokens in one
case, the other has it in another. -/
def Respelled (tokens : List Token) (case case' : KeywordCase) (out out' : Text) : Prop :=
  ∃ pieces : List (Text × Text), out = pieces.flatMap Prod.fst ∧ out' = pieces.flatMap Prod.snd ∧
    ∀ p ∈ pieces, p.1 = p.2 ∨ SpellsKeyword tokens case case' p.1 p.2

/-- Two characters are the same, or the same letter in different cases. -/
def SameLetter (c d : Char) : Prop :=
  c = d ∨ c.isAlpha = true ∧ d.isAlpha = true ∧ c.toUpper = d.toUpper

lemma isAlpha_toUpper (c : Char) : c.toUpper.isAlpha = c.isAlpha :=
  apply_toUpper (by decide) c

lemma toUpper_of_isAlpha {c : Char} (h : c.isAlpha = false) : c.toUpper = c := by
  by_cases hc : c.toNat < 0x80
  · have hsame := forall_ascii (p := fun c => c.isAlpha || decide (c.toUpper = c))
      (by decide) hc
    simpa [h] using hsame
  · exact toUpper_of_le hc

section Respelled

variable {tokens : List Token} {case case' : KeywordCase} {x y x' y' : Text}

lemma isKeyword_iff {t : Token} : t.isKeyword = true ↔ ∃ word, t.kind = .keyword word := by
  unfold Token.isKeyword
  split <;> simp_all

lemma exists_word_of_isKeyword {t : Token} (ht : t.Lexed) (h : t.isKeyword = true) :
    ∃ word, t.kind = .keyword word ∧ Keyword.ofWord? t.text = some word := by
  obtain ⟨word, hkind⟩ := isKeyword_iff.1 h
  exact ⟨word, hkind, ht.keyword word hkind⟩

/-- The two spellings have the same letters, and do not end in a line feed. -/
lemma SpellsKeyword.letters (h : SpellsKeyword tokens case case' x y)
    (htokens : ∀ t ∈ tokens, t.Lexed) :
    asciiUpper x = asciiUpper y ∧ Solid x ∧ Solid y := by
  obtain ⟨t, ht, hkeyword, rfl, rfl⟩ := h
  obtain ⟨word, -, hword⟩ := exists_word_of_isKeyword (htokens t ht) hkeyword
  exact ⟨by rw [asciiUpper_apply hword, asciiUpper_apply hword],
    solid_apply_of_ofWord? hword case, solid_apply_of_ofWord? hword case'⟩

/-- Being equal or the two spellings of a keyword, as a likeness. -/
def Likeness.keywords (tokens : List Token) (htokens : ∀ t ∈ tokens, t.Lexed)
    (case case' : KeywordCase) : Likeness where
  like x y := x = y ∨ SpellsKeyword tokens case case' x y
  refl x := .inl rfl
  length x y h := by
    rcases h with rfl | h
    · rfl
    · rw [← length_asciiUpper, (h.letters htokens).1, length_asciiUpper]

namespace Respelled

lemma refl (x : Text) : Respelled tokens case case' x x := ⟨[(x, x)], by simp, by simp, by simp⟩

lemma of_like {htokens : ∀ t ∈ tokens, t.Lexed}
    (h : (Likeness.keywords tokens htokens case case').like x y) :
    Respelled tokens case case' x y := by
  have h : x = y ∨ SpellsKeyword tokens case case' x y := h
  exact ⟨[(x, y)], by simp, by simp, by simpa using h⟩

lemma append (h : Respelled tokens case case' x y) (h' : Respelled tokens case case' x' y') :
    Respelled tokens case case' (x ++ x') (y ++ y') := by
  obtain ⟨ps, rfl, rfl, hps⟩ := h
  obtain ⟨qs, rfl, rfl, hqs⟩ := h'
  exact ⟨ps ++ qs, by simp, by simp, List.forall_mem_append.2 ⟨hps, hqs⟩⟩

/-- Texts respelled have the same letters. -/
lemma letters (h : Respelled tokens case case' x y) (htokens : ∀ t ∈ tokens, t.Lexed) :
    asciiUpper x = asciiUpper y := by
  obtain ⟨ps, rfl, rfl, hps⟩ := h
  induction ps with
  | nil => rfl
  | cons p ps ih =>
    have hp : asciiUpper p.1 = asciiUpper p.2 := by
      rcases hps p (List.mem_cons_self ..) with hp | hp
      · rw [hp]
      · exact (hp.letters htokens).1
    have hrest := ih fun q hq => hps q (List.mem_cons_of_mem _ hq)
    simp only [asciiUpper, List.flatMap_cons, List.map_append] at hp hrest ⊢
    rw [hp, hrest]

/-- Line feeds are trimmed off both texts alike, for no keyword ends in one.  The induction is from
the end of the pieces: one that is all line feeds goes and the next one is trimmed, and any other
one stops the trimming. -/
lemma trimEnd (h : Respelled tokens case case' x y) (htokens : ∀ t ∈ tokens, t.Lexed) :
    Respelled tokens case case' (trimEndWhile (· == '\n') x) (trimEndWhile (· == '\n') y) := by
  obtain ⟨ps, rfl, rfl, hps⟩ := h
  induction ps using List.reverseRecOn with
  | nil => exact refl []
  | append_singleton ps p ih =>
    have hfront : ∀ q ∈ ps, q.1 = q.2 ∨ SpellsKeyword tokens case case' q.1 q.2 :=
      fun q hq => hps q (List.mem_append_left _ hq)
    have hall : Respelled tokens case case' (ps.flatMap Prod.fst) (ps.flatMap Prod.snd) :=
      ⟨ps, rfl, rfl, hfront⟩
    obtain ⟨a, b⟩ := p
    simp only [List.flatMap_append, List.flatMap_singleton]
    rcases hps (a, b) (by simp) with hab | hab
    · obtain rfl : a = b := hab
      obtain ⟨tail, ha, htail⟩ := exists_eq_trimEndWhile_append (· == '\n') a
      by_cases hnil : trimEndWhile (· == '\n') a = []
      · rw [hnil, List.nil_append] at ha
        subst ha
        rw [trimEndWhile_append htail, trimEndWhile_append htail]
        exact ih hfront
      · have htrim : ∀ s : Text, trimEndWhile (· == '\n') (s ++ a) =
            s ++ trimEndWhile (· == '\n') a := by
          intro s
          conv_lhs => rw [ha, ← List.append_assoc, trimEndWhile_append htail]
          refine trimEndWhile_of_getLast? fun c hc => ?_
          rw [List.getLast?_append_of_ne_nil _ hnil] at hc
          exact not_of_mem_getLast?_trimEndWhile (p := (· == '\n')) hc
        rw [htrim, htrim]
        exact hall.append (refl _)
    · obtain ⟨-, ha, hb⟩ := hab.letters htokens
      have htrim : ∀ s t : Text, Solid t → trimEndWhile (· == '\n') (s ++ t) = s ++ t := by
        intro s t ht
        refine trimEndWhile_of_getLast? fun c hc => ?_
        rw [List.getLast?_append_of_ne_nil _ ht.ne_nil] at hc
        have hc := ht.last c hc
        rw [beq_eq_false_iff_ne]
        rintro rfl
        cases hc
      rw [htrim _ _ ha, htrim _ _ hb]
      exact hall.append ⟨[(a, b)], by simp, by simp, by simpa using Or.inr hab⟩

/-- Characters of texts respelled differ in the case of letters at most. -/
lemma characters (h : Respelled tokens case case' x y) (htokens : ∀ t ∈ tokens, t.Lexed) :
    List.Forall₂ SameLetter x y := by
  have hmap := List.forall₂_eq_eq_eq (α := Char) ▸ h.letters htokens
  refine (List.forall₂_map_left_iff.1 (List.forall₂_map_right_iff.1 hmap)).imp fun c d hcd => ?_
  have hd : d.isAlpha = c.isAlpha := by rw [← isAlpha_toUpper, ← hcd, isAlpha_toUpper]
  cases hc : c.isAlpha with
  | true => exact .inr ⟨hc, hd.trans hc, hcd⟩
  | false => exact .inl (by rw [← toUpper_of_isAlpha hc, hcd, toUpper_of_isAlpha (hd.trans hc)])

/-- Pieces alike are pieces of texts respelled. -/
lemma of_pieces {htokens : ∀ t ∈ tokens, t.Lexed} {ps qs : List Piece}
    (h : List.Forall₂ (Piece.Alike (.keywords tokens htokens case case')) ps qs) :
    Respelled tokens case case' (ps.flatMap Piece.text) (qs.flatMap Piece.text) := by
  induction h with
  | nil => exact refl []
  | cons hpq _ ih =>
    refine append ?_ ih
    cases hpq with
    | gap => exact refl _
    | code hxy => exact of_like hxy
    | remark t => exact refl t

/-- Lines alike read as texts respelled. -/
lemma of_line {htokens : ∀ t ∈ tokens, t.Lexed} {l m : Line}
    (h : l.Alike (.keywords tokens htokens case case') m) :
    Respelled tokens case case' l.render m.render := by
  have hcode : Respelled tokens case case' l.code m.code :=
    of_pieces (List.forall₂_reverse_iff.2 h.pieces)
  rw [Line.render, Line.render, h.isEmpty, h.note, h.indent]
  split
  · exact refl []
  · exact ((refl _).append hcode).append (refl _)

lemma unlines {ls ms : List Text} (h : List.Forall₂ (Respelled tokens case case') ls ms) :
    Respelled tokens case case' (Text.unlines ls) (Text.unlines ms) := by
  induction h with
  | nil => exact refl []
  | cons hl hls ih =>
    cases hls with
    | nil => exact hl
    | cons => exact hl.append ((refl ['\n']).append ih)

/-- Pages with lines alike read as texts respelled. -/
lemma of_page {htokens : ∀ t ∈ tokens, t.Lexed} {p q : Page}
    (h : List.Forall₂ (Line.Alike (.keywords tokens htokens case case')) p.lines q.lines) :
    Respelled tokens case case' p.render q.render := by
  refine trimEnd (unlines ?_) htokens
  rw [List.forall₂_map_left_iff, List.forall₂_map_right_iff, List.forall₂_reverse_iff]
  exact h.imp fun _ _ => of_line

end Respelled

end Respelled

/-! ## Two spellings of a query -/

/-- Keywords in capitals, every other token as it is. -/
def Recasting.capitals : Recasting where
  toFun t := if t.isKeyword then { t with text := asciiUpper t.text } else t
  kind_eq t := by split <;> rfl
  letters_eq t := by split <;> simp
  text_eq t h := by simp [h]

lemma Recasting.offset_capitals (t : Token) : (Recasting.capitals t).offset = t.offset := by
  change (if t.isKeyword then _ else t).offset = t.offset
  split <;> rfl

/-- Every token as it is. -/
def Recasting.self : Recasting := ⟨fun t => t, fun _ => rfl, fun _ => rfl, fun _ _ => rfl⟩

/-- The text of a token in a query that may have its keywords in another case.  All other tokens
keep theirs. -/
def Token.Respells (t : Token) (text : Text) : Prop :=
  if t.isKeyword then text.asciiUpper = t.text.asciiUpper else text = t.text

instance (t : Token) (text : Text) : Decidable (t.Respells text) :=
  inferInstanceAs (Decidable (if t.isKeyword then _ else _))

section Spellings

variable {query : Text} {tokens : List Token} {texts : List Text}

lemma Token.Respells.letters {t : Token} {text : Text} (h : t.Respells text) :
    text.asciiUpper = t.text.asciiUpper := by
  unfold Token.Respells at h
  split at h
  · exact h
  · rw [h]

lemma Token.Recased.isKeyword {t u : Token} (h : t.Recased u) : u.isKeyword = t.isKeyword := by
  simp [Token.isKeyword, h.kind]

/-- The texts of recased tokens can be told apart in what they make up together. -/
lemma map_text_eq_of_recased {tokens' : List Token} (h : List.Forall₂ Token.Respells tokens texts)
    (h' : List.Forall₂ Token.Recased tokens tokens')
    (hquery : tokens'.flatMap Token.text = texts.flatten) : tokens'.map Token.text = texts := by
  induction h generalizing tokens' with
  | nil =>
    cases h'
    rfl
  | @cons t text ts texts ht hts ih =>
    obtain ⟨u, us, hu, hus, rfl⟩ := List.forall₂_cons_left_iff.1 h'
    have hlength : u.text.length = text.length := by
      rw [← length_asciiUpper, hu.letters, ← ht.letters, length_asciiUpper]
    rw [List.flatMap_cons, List.flatten_cons] at hquery
    obtain ⟨htext, hrest⟩ := List.append_inj hquery hlength
    rw [List.map_cons, htext, ih hus hrest]

/-- The query with keywords in another case has the same tokens, but for these.  Both texts are the
same in capitals and the lexer does not look at case, so it divides them at the same places. -/
lemma exists_tokenize_respelled (h : tokenize query = .ok tokens)
    (htexts : List.Forall₂ Token.Respells tokens texts) :
    ∃ tokens', tokenize texts.flatten = .ok tokens' ∧
      tokens'.map Recasting.capitals = tokens.map Recasting.capitals := by
  have hletters : asciiUpper texts.flatten = asciiUpper query := by
    rw [← flatMap_text_of_tokenize h]
    clear h
    induction htexts with
    | nil => rfl
    | cons ht _ ih =>
      simp only [asciiUpper, List.flatten_cons, List.flatMap_cons, List.map_append] at ih ⊢
      rw [ih]
      exact congrArg (· ++ _) ht.letters
  obtain ⟨tokens', h', hrecased⟩ := exists_recased_of_tokenize h hletters
  refine ⟨tokens', h', ?_⟩
  have hmap := map_text_eq_of_recased htexts hrecased (flatMap_text_of_tokenize h')
  subst hmap
  clear h h' hletters
  induction hrecased with
  | nil => rfl
  | @cons t u ts us hu _ ih =>
    obtain ⟨ht, hts⟩ := List.forall₂_cons.1 htexts
    have hcapitals : Recasting.capitals u = Recasting.capitals t := by
      change (if u.isKeyword then _ else u) = (if t.isKeyword then _ else t)
      rw [hu.isKeyword]
      cases t; cases u
      obtain ⟨rfl, rfl, hl⟩ := hu
      unfold Token.Respells at ht
      split <;> simp_all
    rw [List.map_cons, List.map_cons, hcapitals, ih hts]

/-- A style that fixes the case of keywords lays a query out as it does with keywords in
capitals. -/
lemma format_capitals {dialect : Dialect} {script : Script} (h : tokenize query = .ok tokens)
    (hscript : segment dialect tokens = .ok script) (style : Style)
    (hcase : style.keywordCase ≠ .preserve) :
    Script.format style (recastStatements .capitals script) = Script.format style script := by
  have hlike : ∀ t ∈ tokens, Line.spelling style.keywordCase t =
      Line.spelling style.keywordCase (Recasting.capitals t) := by
    intro t ht
    change _ = Line.spelling _ (if t.isKeyword then _ else t)
    split
    · rename_i hkeyword
      obtain ⟨word, hkind, hword⟩ :=
        exists_word_of_isKeyword (lexed_of_tokenize h t ht) hkeyword
      simp only [Line.spelling, hkind]
      exact (apply_asciiUpper hword hcase).symm
    · rfl
  have hlines := Script.alike_layOut_recast Recasting.offset_capitals .eq hscript
    (sound_of_tokenize h) style style.keywordCase hlike
  exact (Page.render_eq_of_alike hlines).symm

/-- Two outcomes for a query: the same failure, or texts made of the same pieces, but for the case
of the query's keywords. -/
inductive SameButCase (query : Text) (case case' : KeywordCase) :
    Except Failure Text → Except Failure Text → Prop
  | error (failure : Failure) : SameButCase query case case' (.error failure) (.error failure)
  | ok {tokens : List Token} {out out' : Text} (htokens : tokenize query = .ok tokens)
    (hpieces : Respelled tokens case case' out out')
    (hcharacters : List.Forall₂ SameLetter out out') :
    SameButCase query case case' (.ok out) (.ok out')

/-- Two styles that differ in the case of keywords.  Where a query is divided does not depend on the
style, and pages are laid out by the length of what they show, which case does not change. -/
lemma sameButCase_formatQuery (style : Style) (dialect : Dialect) (query : Text)
    (case case' : KeywordCase) :
    SameButCase query case case' (formatQuery { style with keywordCase := case } dialect query)
      (formatQuery { style with keywordCase := case' } dialect query) := by
  cases h : tokenize query with
  | error failure =>
    rw [formatQuery, formatQuery, parse, h]
    exact .error failure
  | ok tokens =>
    have hparse : parse query dialect = segment dialect tokens := by rw [parse, h]; rfl
    rw [formatQuery, formatQuery, hparse]
    cases hscript : segment dialect tokens with
    | error failure => exact .error failure
    | ok script =>
      have hlexed := lexed_of_tokenize h
      have hlike : ∀ t ∈ tokens, (Likeness.keywords tokens hlexed case case').like
          (Line.spelling case t) (Line.spelling case' t) := by
        intro t ht
        unfold Line.spelling
        split
        · rename_i word hkind
          exact .inr ⟨t, ht, isKeyword_iff.2 ⟨word, hkind⟩, rfl, rfl⟩
        · exact .inl rfl
      have hlines := Script.alike_layOut_recast (f := .self) (fun _ => rfl)
        (.keywords tokens hlexed case case') hscript (sound_of_tokenize h)
        { style with keywordCase := case } case' hlike
      rw [recastStatements_self fun _ => rfl] at hlines
      have hrespelled := Respelled.of_page hlines
      exact .ok h hrespelled (hrespelled.characters hlexed)

/-- A style that fixes the case of keywords gives respelled queries the same layout.  Both scripts
become the same when their keywords are put in capitals, and such a style cannot tell a script from
its capitals. -/
lemma formatQuery_respelled {style : Style} (hcase : style.keywordCase ≠ .preserve)
    (dialect : Dialect) (h : tokenize query = .ok tokens)
    (htexts : List.Forall₂ Token.Respells tokens texts) :
    formatQuery style dialect texts.flatten = formatQuery style dialect query := by
  obtain ⟨tokens', h', hcapitals⟩ := exists_tokenize_respelled h htexts
  have hparse : parse query dialect = segment dialect tokens := by rw [parse, h]; rfl
  have hparse' : parse texts.flatten dialect = segment dialect tokens' := by rw [parse, h']; rfl
  have hsegment := segment_map dialect Recasting.offset_capitals tokens
  have hsegment' := segment_map dialect Recasting.offset_capitals tokens'
  rw [hcapitals, hsegment] at hsegment'
  rw [formatQuery, formatQuery, hparse, hparse']
  -- the scripts of both queries are the same in capitals
  cases hscript : segment dialect tokens with
  | error failure =>
    cases hscript' : segment dialect tokens' with
    | error failure' =>
      rw [hscript, hscript'] at hsegment'
      obtain rfl := Except.error.inj hsegment'
      rfl
    | ok script' =>
      rw [hscript, hscript'] at hsegment'
      cases hsegment'
  | ok script =>
    cases hscript' : segment dialect tokens' with
    | error failure' =>
      rw [hscript, hscript'] at hsegment'
      cases hsegment'
    | ok script' =>
      rw [hscript, hscript'] at hsegment'
      have hsame : recastStatements .capitals script = recastStatements .capitals script' :=
        Except.ok.inj hsegment'
      have hformat := format_capitals h hscript style hcase
      have hformat' := format_capitals h' hscript' style hcase
      rw [Except.map, Except.map, ← hformat, hsame, hformat']

end Spellings

/-- **The case of keywords has no part in the layout.**  Two styles that differ in it alone refuse a
query in the same way, or their texts are the same but for the case of the query's keywords; and
where a style fixes the case, the query may have its keywords in any. -/
theorem formatQuery_keywordCase (style : Style) (dialect : Dialect) (query : Text) :
    (∀ case case' : KeywordCase,
      SameButCase query case case' (formatQuery { style with keywordCase := case } dialect query)
        (formatQuery { style with keywordCase := case' } dialect query)) ∧
    ∀ tokens texts, tokenize query = .ok tokens → List.Forall₂ Token.Respells tokens texts →
      style.keywordCase ≠ .preserve →
      formatQuery style dialect texts.flatten = formatQuery style dialect query :=
  ⟨sameButCase_formatQuery style dialect query,
    fun _ _ h htexts hcase => formatQuery_respelled hcase dialect h htexts⟩

/-- A query in small letters and one with some of its keywords in capitals. -/
theorem formatQuery_keywordCase_capitals :
    formatQuery {} .jpql "SELECT a frOM t" = formatQuery {} .jpql "select a from t" :=
  (formatQuery_keywordCase {} .jpql "select a from t").2
    [⟨.keyword .SELECT, "select", 0⟩, ⟨.blank, " ", 6⟩, ⟨.identifier, "a", 7⟩, ⟨.blank, " ", 8⟩,
      ⟨.keyword .FROM, "from", 9⟩, ⟨.blank, " ", 13⟩, ⟨.identifier, "t", 14⟩]
    ["SELECT", " ", "a", " ", "frOM", " ", "t"] (by decide +kernel)
    (.cons (by decide) (.cons (by decide) (.cons (by decide) (.cons (by decide) (.cons (by decide)
      (.cons (by decide) (.cons (by decide) .nil))))))) (by decide)

end SqlInlay.Sql
