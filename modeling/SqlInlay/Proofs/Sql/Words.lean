import Mathlib.Data.List.Chain
import Mathlib.Data.List.Nodup
import SqlInlay.Proofs.Sql.Lossless
import SqlInlay.Proofs.Sql.Tracing
import SqlInlay.Proofs.Text.Bytes

/-!
# Words and where they stand

Layout does not look at blanks, but at what they did to the tokens around them.  A `Word` is a token
that is no blank, with the two things that layout may ask about what stands in front of it: whether
it is the first thing on its line, and whether it touches the token before it.  So two queries can
be compared word by word, without a look at the blanks between.

**A script is made of words alone.**  `leavesOf_eq` takes the leaves of a query to its words; one of
the two things, `fresh`, is kept for comments, and the other for nothing.  Whether two neighbours
touch is asked of a script later, when it is laid out, by the offsets of its tokens.

**Offsets** say the same as words do.  Tokens stand one behind the other (`placed_of_tokenize`), so
two neighbours touch exactly where one ends at the offset of the other (`isChain_words`), and no
token is there twice (`nodup_words`).

**Recasting word by word.**  When the words of two texts resemble each other place by place,
`Recasting.ofWords` takes the tokens of one text to those of the other.  It has to be a function of
tokens, not of places; that no token is there twice makes it one that takes each word to its
counterpart (`Resemble.recasting_eq`), and the leaves of the second text are those of the first,
recast (`Resemble.leaves_eq`).

**Back from strokes to words.**  Decisions of a layout are about neighbouring strokes of a script.
`exists_words_of_settled` finds the neighbouring words that they come from, where touching is known.
-/

namespace SqlInlay.Sql

/-- A token that is no blank, and what stands in front of it. -/
structure Word where
  token : Token
  /-- Nothing else stands in front of it on its line. -/
  fresh : Bool
  /-- It touches the token before it. -/
  touching : Bool
deriving DecidableEq, Repr

namespace Word

/-- The word as a node, before groups are folded. -/
def leaf (w : Word) : Node :=
  if w.token.isComment then .comment ⟨w.token, w.fresh⟩ else .token w.token

/-- The word as a stroke. -/
def stroke (w : Word) : Stroke :=
  if w.token.isComment then .comment ⟨w.token, w.fresh⟩ else .write w.token

lemma strokes_leaf (w : Word) : w.leaf.strokes = [w.stroke] := by
  unfold leaf stroke
  split <;> rfl

/-- A word that is written is its token. -/
lemma stroke_eq_write {w : Word} {t : Token} (h : w.stroke = .write t) :
    w.token = t ∧ w.token.isComment = false := by
  unfold stroke at h
  split at h
  · cases h
  · rename_i hcode
    exact ⟨Stroke.write.inj h, by simpa using hcode⟩

lemma kind_stroke (w : Word) : w.stroke.kind = w.token.kind := by
  unfold stroke
  split <;> rfl

end Word

/-- The words of some tokens; `fresh` says that nothing has been read on the current line, and
`touching` that a token stands right in front. -/
def wordsOf (fresh touching : Bool) : List Token → List Word
  | [] => []
  | t :: ts =>
    if t.kind = .blank then wordsOf (fresh || '\n' ∈ t.text) false ts
    else ⟨t, fresh, touching⟩ :: wordsOf false true ts

/-- The words of a text. -/
def words (tokens : List Token) : List Word := wordsOf true false tokens

lemma leavesOf_eq (fresh touching : Bool) (tokens : List Token) :
    leavesOf fresh tokens = (wordsOf fresh touching tokens).map Word.leaf := by
  induction tokens generalizing fresh touching with
  | nil => rfl
  | cons t ts ih =>
    simp only [leavesOf, wordsOf]
    split
    · exact ih _ _
    · rw [ih false true]
      rfl

lemma nodesStrokes_leaves (ws : List Word) :
    nodesStrokes (ws.map Word.leaf) = ws.map Word.stroke := by
  induction ws with
  | nil => rfl
  | cons w ws ih => simp [nodesStrokes, Word.strokes_leaf, ih]

lemma map_token_wordsOf (fresh touching : Bool) (tokens : List Token) :
    (wordsOf fresh touching tokens).map Word.token = tokens.filter (·.kind != .blank) := by
  induction tokens generalizing fresh touching with
  | nil => rfl
  | cons t ts ih =>
    simp only [wordsOf]
    split
    · rename_i hblank
      simp [hblank, ih]
    · rename_i hblank
      simp [hblank, ih]

lemma of_mem_words {w : Word} {tokens : List Token} (h : w ∈ words tokens) :
    w.token ∈ tokens ∧ w.token.kind ≠ .blank := by
  have hmem : w.token ∈ (words tokens).map Word.token := List.mem_map_of_mem h
  rw [words, map_token_wordsOf, List.mem_filter, bne_iff_ne] at hmem
  exact hmem

/-! ## Offsets

The lexer counts bytes as it goes, so each token has the offset at which the one before it stops.
Settling keywords changes kinds and no offset.
-/

/-- Tokens stand one behind the other from an offset on, and none of them is empty. -/
def Placed (offset : Nat) : List Token → Prop
  | [] => True
  | t :: ts => t.offset = offset ∧ t.text ≠ [] ∧ Placed (offset + t.text.bytes) ts

lemma placed_lexemesFrom {before : Option Char} {offset : Nat} {t : Text} {tokens : List Token}
    (h : lexemesFrom before offset t = .ok tokens) : Placed offset tokens := by
  fun_induction lexemesFrom before offset t generalizing tokens with
  | case1 =>
    obtain rfl : [] = tokens := by simpa using h
    trivial
  | case2 => simp at h
  | case3 => simp_all
  | case4 before offset c t kind n hlexeme text rest hrest =>
    rename_i ih
    obtain rfl := Except.ok.inj h
    exact ⟨rfl, List.cons_ne_nil _ _, ih hrest⟩

lemma offset_settle (before : Option Token) (t : Token) (after : Option Token) :
    (settle before t after).offset = t.offset := by
  unfold settle
  split
  · split <;> rfl
  · rfl

lemma placed_settleKeywords {offset : Nat} {tokens : List Token} (h : Placed offset tokens)
    (before : Option Token) : Placed offset (settleKeywords before tokens) := by
  induction tokens generalizing offset before with
  | nil => trivial
  | cons t ts ih =>
    obtain ⟨hoffset, htext, hts⟩ := h
    refine ⟨by rw [offset_settle, hoffset], by rwa [text_settle], ?_⟩
    rw [text_settle]
    exact ih hts _

/-- The tokens of a query stand one behind the other. -/
lemma placed_of_tokenize {query : Text} {tokens : List Token} (h : tokenize query = .ok tokens) :
    Placed 0 tokens := by
  obtain ⟨raw, hraw, rfl⟩ := exists_of_tokenize h
  exact placed_settleKeywords (placed_lexemesFrom hraw) none

/-- Two neighbours touch where one ends at the offset of the other.  On the left is what the blanks
say, on the right what a layout asks. -/
def Word.Neighbours (a b : Word) : Prop := b.touching = true ↔ a.token.stop = b.token.offset

lemma isChain_cons_wordsOf {a : Word} {fresh touching : Bool} {offset : Nat} {tokens : List Token}
    (h : Placed offset tokens) (htouch : touching = true ↔ a.token.stop = offset)
    (hle : a.token.stop ≤ offset) :
    (a :: wordsOf fresh touching tokens).IsChain Word.Neighbours := by
  induction tokens generalizing a fresh touching offset with
  | nil => exact .singleton a
  | cons t ts ih =>
    obtain ⟨hoffset, htext, hts⟩ := h
    have hpos := Text.bytes_pos htext
    simp only [wordsOf]
    split
    · refine ih hts ?_ (by omega)
      simp only [Bool.false_eq_true, false_iff]
      omega
    · refine .cons_cons ?_ (ih hts ?_ ?_)
      · rw [Word.Neighbours, hoffset]
        exact htouch
      · simp [Token.stop, hoffset]
      · simp [Token.stop, hoffset]

lemma isChain_wordsOf {fresh touching : Bool} {offset : Nat} {tokens : List Token}
    (h : Placed offset tokens) : (wordsOf fresh touching tokens).IsChain Word.Neighbours := by
  induction tokens generalizing fresh touching offset with
  | nil => exact .nil
  | cons t ts ih =>
    obtain ⟨hoffset, -, hts⟩ := h
    simp only [wordsOf]
    split
    · exact ih hts
    · exact isChain_cons_wordsOf hts (by simp [Token.stop, hoffset]) (by simp [Token.stop, hoffset])

/-- Whether neighbours touch can be read off their offsets. -/
lemma isChain_words {query : Text} {tokens : List Token} (h : tokenize query = .ok tokens) :
    (words tokens).IsChain Word.Neighbours := isChain_wordsOf (placed_of_tokenize h)

lemma offset_le_of_placed {offset : Nat} {tokens : List Token} (h : Placed offset tokens) :
    ∀ t ∈ tokens, offset ≤ t.offset := by
  induction tokens generalizing offset with
  | nil => simp
  | cons t ts ih =>
    obtain ⟨hoffset, -, hts⟩ := h
    intro u hu
    rcases List.mem_cons.1 hu with rfl | hu
    · exact hoffset.ge
    · exact (Nat.le_add_right _ _).trans (ih hts u hu)

/-- A token ends where the next one starts. -/
lemma stop_eq_of_placed {offset : Nat} {front back : List Token} {t u : Token}
    (h : Placed offset (front ++ t :: u :: back)) : t.stop = u.offset := by
  induction front generalizing offset with
  | nil =>
    obtain ⟨ht, -, hu, -⟩ := h
    rw [Token.stop, ht, hu]
  | cons v front ih => exact ih h.2.2

lemma nodup_of_placed {offset : Nat} {tokens : List Token} (h : Placed offset tokens) :
    tokens.Nodup := by
  induction tokens generalizing offset with
  | nil => exact .nil
  | cons t ts ih =>
    obtain ⟨hoffset, htext, hts⟩ := h
    refine List.nodup_cons.2 ⟨fun hmem => ?_, ih hts⟩
    have hle := offset_le_of_placed hts t hmem
    have hpos := Text.bytes_pos htext
    omega

/-- No token of a query is there twice. -/
lemma nodup_words {query : Text} {tokens : List Token} (h : tokenize query = .ok tokens) :
    ((words tokens).map Word.token).Nodup := by
  rw [words, map_token_wordsOf]
  exact (nodup_of_placed (placed_of_tokenize h)).filter _

/-! ## Recasting word by word

What a recasting may do to a token is fixed: it keeps the kind and, but for the case of its letters,
the text.  `Token.resembles` is this as a test, so that a list of pairs that do not pass it still
makes a recasting, one that leaves those tokens alone.
-/

namespace Token

lemma isKeyword_of_isComment {t : Token} (h : t.isComment = true) : t.isKeyword = false := by
  unfold isKeyword
  split
  · simp_all [isComment]
  · rfl

/-- The token `u` may stand in the place of `t`. -/
def resembles (t u : Token) : Bool :=
  u.kind == t.kind && u.text.sameLetters t.text && (t.isKeyword || u.text == t.text)

lemma resembles_iff {t u : Token} : t.resembles u = true ↔
    u.kind = t.kind ∧ u.text.asciiUpper = t.text.asciiUpper ∧
      (t.isKeyword = false → u.text = t.text) := by
  cases h : t.isKeyword <;> simp [resembles, Text.sameLetters, h, and_assoc]

end Token

namespace Recasting

/-- The recasting that takes the first token of each pair to the second, if the two resemble each
other.  Any other token stays as it is. -/
def ofPairs (pairs : List (Token × Token)) : Recasting where
  toFun t := ((pairs.find? fun p => p.1 == t && t.resembles p.2).map Prod.snd).getD t
  kind_eq t := by
    cases h : pairs.find? fun p => p.1 == t && t.resembles p.2 with
    | none => rfl
    | some p =>
      have hp := List.find?_some h
      rw [Bool.and_eq_true, Token.resembles_iff] at hp
      exact hp.2.1
  letters_eq t := by
    cases h : pairs.find? fun p => p.1 == t && t.resembles p.2 with
    | none => rfl
    | some p =>
      have hp := List.find?_some h
      rw [Bool.and_eq_true, Token.resembles_iff] at hp
      exact hp.2.2.1
  text_eq t ht := by
    cases h : pairs.find? fun p => p.1 == t && t.resembles p.2 with
    | none => rfl
    | some p =>
      have hp := List.find?_some h
      rw [Bool.and_eq_true, Token.resembles_iff] at hp
      exact hp.2.2.2 ht

lemma ofPairs_eq {pairs : List (Token × Token)} (hnodup : (pairs.map Prod.fst).Nodup)
    {t u : Token} (hmem : (t, u) ∈ pairs) (h : t.resembles u = true) : ofPairs pairs t = u := by
  have hsome : (pairs.find? fun p => p.1 == t && t.resembles p.2).isSome = true :=
    List.find?_isSome.2 ⟨(t, u), hmem, by simp [h]⟩
  obtain ⟨⟨t', u'⟩, hfind⟩ := Option.isSome_iff_exists.1 hsome
  have hp := List.find?_some hfind
  rw [Bool.and_eq_true, beq_iff_eq] at hp
  obtain rfl : t' = t := hp.1
  have hsame : (t', u') = (t', u) :=
    List.inj_on_of_nodup_map hnodup (List.mem_of_find?_eq_some hfind) hmem rfl
  change ((pairs.find? fun p => p.1 == t' && t'.resembles p.2).map Prod.snd).getD t' = u
  rw [hfind]
  exact (Prod.mk.inj hsame).2

/-- The recasting that takes words to words, place by place. -/
def ofWords (ws vs : List Word) : Recasting :=
  ofPairs ((ws.map Word.token).zip (vs.map Word.token))

end Recasting

/-- Words may stand in the places of others: their tokens resemble each other, and comments are the
first on their lines or not. -/
def Resemble (ws vs : List Word) : Prop :=
  List.Forall₂ (fun w v => w.token.resembles v.token = true ∧
    (w.token.isComment = true → v.fresh = w.fresh)) ws vs

namespace Resemble

variable {ws vs : List Word}

/-- The recasting of words takes each to its counterpart. -/
lemma recasting_eq (h : Resemble ws vs) (hnodup : (ws.map Word.token).Nodup) :
    List.Forall₂ (fun w v => Recasting.ofWords ws vs w.token = v.token) ws vs := by
  have hlength := h.length_eq
  have hfst : (((ws.map Word.token).zip (vs.map Word.token)).map Prod.fst).Nodup := by
    rwa [List.map_fst_zip (by simp [hlength])]
  refine (List.forall₂_iff_zip.2 ⟨hlength, fun {w v} hwv => ?_⟩)
  refine Recasting.ofPairs_eq hfst ?_ ((List.forall₂_iff_zip.1 h).2 hwv).1
  rw [List.zip_map]
  exact List.mem_map_of_mem (f := Prod.map Word.token Word.token) hwv

/-- The leaves of the second words are those of the first, recast. -/
lemma leaves_eq (h : Resemble ws vs) (hnodup : (ws.map Word.token).Nodup) :
    vs.map Word.leaf = recastNodes (Recasting.ofWords ws vs) (ws.map Word.leaf) := by
  have heq := h.recasting_eq hnodup
  generalize Recasting.ofWords ws vs = f at heq
  induction heq with
  | nil => rfl
  | @cons w v ws vs hwv _ ih =>
    cases h with
    | cons hresembles hrest =>
      have hcomment : v.token.isComment = w.token.isComment := by rw [← hwv, f.isComment]
      have hleaf : v.leaf = (w.leaf).recast f := by
        unfold Word.leaf
        rw [hcomment]
        split
        · rename_i hw
          rw [hresembles.2 hw, ← hwv]
          rfl
        · rw [← hwv]
          rfl
      have hnodup' : (ws.map Word.token).Nodup := (List.nodup_cons.1 (by simpa using hnodup)).2
      simp [recastNodes, hleaf, ih hrest hnodup']

end Resemble

/-! ## Words behind strokes

Strokes of a script are words that settled, place by place, so what stands side by side in the one
list does so in the other.
-/

/-- Related lists have related members. -/
lemma exists_of_forall₂ {α β : Type} {R : α → β → Prop} {l : List α} {m : List β}
    (h : List.Forall₂ R l m) {x : α} (hx : x ∈ l) : ∃ y ∈ m, R x y := by
  induction h with
  | nil => simp at hx
  | cons hab _ ih =>
    rcases List.mem_cons.1 hx with rfl | hx
    · exact ⟨_, List.mem_cons_self .., hab⟩
    · obtain ⟨y, hy, hxy⟩ := ih hx
      exact ⟨y, List.mem_cons_of_mem _ hy, hxy⟩

/-- Related lists have related neighbours in the same places. -/
lemma exists_neighbours_of_forall₂ {α β : Type} {R : α → β → Prop} {l : List α} {m : List β}
    (h : List.Forall₂ R l m) {front back : List β} {x y : β} (hm : m = front ++ x :: y :: back) :
    ∃ front' back' a b, l = front' ++ a :: b :: back' ∧ List.Forall₂ R front' front ∧ R a x ∧
      R b y := by
  induction front generalizing l m with
  | nil =>
    subst hm
    cases h with
    | cons ha h =>
      cases h with
      | cons hb h => exact ⟨[], _, _, _, rfl, .nil, ha, hb⟩
  | cons z front ih =>
    subst hm
    cases h with
    | cons hz h =>
      obtain ⟨front', back', a, b, rfl, hfront, ha, hb⟩ := ih h rfl
      exact ⟨_ :: front', back', a, b, rfl, .cons hz hfront, ha, hb⟩

/-- Neighbouring strokes of a script are neighbouring words of its text. -/
lemma exists_words_of_settled {ws : List Word} {all es rest : List Stroke} {s r : Stroke}
    (h : Settled (ws.map Word.stroke) all) (hall : all = es ++ s :: r :: rest) :
    ∃ front back a b, ws = front ++ a :: b :: back ∧ Settled (front.map Word.stroke) es ∧
      Settles a.stroke s ∧ Settles b.stroke r := by
  obtain ⟨front, back, x, y, hmap, hfront, hx, hy⟩ := exists_neighbours_of_forall₂ h hall
  obtain ⟨front, rest', rfl, rfl, hrest⟩ := List.map_eq_append_iff.1 hmap
  obtain ⟨a, rest', rfl, rfl, hrest'⟩ := List.map_eq_cons_iff.1 hrest
  obtain ⟨b, back, rfl, rfl, -⟩ := List.map_eq_cons_iff.1 hrest'
  exact ⟨front, back, a, b, rfl, hfront, hx, hy⟩

/-- Every stroke of a script is a word of its text. -/
lemma exists_word_of_settled {ws : List Word} {all : List Stroke} {s : Stroke}
    (h : Settled (ws.map Word.stroke) all) (hs : s ∈ all) : ∃ w ∈ ws, Settles w.stroke s := by
  obtain ⟨r, hr, hrs⟩ := exists_of_forall₂ h.flip hs
  obtain ⟨w, hw, rfl⟩ := List.mem_map.1 hr
  exact ⟨w, hw, hrs⟩

/-- A word that is written or glued is its token. -/
lemma Word.token_eq_of_settles {w : Word} {s : Stroke} {t : Token} (h : Settles w.stroke s)
    (hs : s = .write t ∨ s = .glue t) : w.token = t := by
  generalize hw : w.stroke = r at h
  cases h with
  | refl =>
    rcases hs with rfl | rfl
    · exact (Word.stroke_eq_write hw).1
    · unfold Word.stroke at hw
      split at hw <;> cases hw
  | mark u hu => rcases hs with hs | hs <;> cases hs
  | glue u hu =>
    obtain rfl : u = t := by rcases hs with hs | hs <;> cases hs; rfl
    exact (Word.stroke_eq_write hw).1

/-- What is not written as a word is no keyword, and keeps its text: the case of its letters is not
for the layout to choose. -/
lemma Word.text_recast_of_settles (f : Recasting) {w : Word} {s : Stroke} (h : Settles w.stroke s)
    (hs : ∀ t, s ≠ .write t) : (s.recast f).text = s.text := by
  generalize hw : w.stroke = r at h
  cases h with
  | refl =>
    unfold Word.stroke at hw
    split at hw
    · rename_i hcomment
      subst hw
      exact f.text_eq w.token (Token.isKeyword_of_isComment hcomment)
    · exact absurd hw.symm (hs _)
  | mark u hu => rfl
  | glue u hu =>
    refine f.text_eq u ?_
    rcases hu with hu | hu <;> simp [Token.isKeyword, hu]

end SqlInlay.Sql
