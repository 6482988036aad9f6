import SqlInlay.Proofs.Sql.Recasting
import SqlInlay.Proofs.Sql.Shown
import SqlInlay.Proofs.Text.Search

/-!
# Two lines at a time

A script and its recasting are written side by side.  What they put on a line differs in the texts
of keywords at most, and the one thing that could make more of it is a space: whether there is one
depends on the `Trace` of what was written last, and a trace remembers where its token ended.

**What a stroke leaves.**  `Leaves` says which traces can stand at the end of an open line behind
some strokes.  The trace is that of the last stroke, with one bit that is not determined by it:
whether a sign was read as unary, for which the stroke before counts, or the start of a line.

**Agreement.**  `Agrees` is all that is asked of a recasting: behind each stroke, the next token
needs a space in both scripts or in neither.  It speaks of strokes and not of pages, so it can be
shown of a query without knowing its layout.  `agrees_of_touching` says that only three kinds of
tokens have to be looked at.

**Lines alike.**  `Line.Level` is the invariant for two lines on which the same strokes are put:
alike, and with traces that the strokes can leave.  `Line.Level.take` is the step that agreement
allows, and `flatWidth_recast` is what comes of it: both scripts measure the same.
-/

namespace SqlInlay.Sql

open SqlInlay.Text

/-! ## Letters and symbols -/

lemma toUpper_eq_iff {c d : Char} (hd : d.isAlpha = false) : c.toUpper = d ↔ c = d := by
  have hsame : c.toUpper.isAlpha = true ∨ c.toUpper = c := by
    by_cases hc : c.toNat < 0x80
    · have hletter := forall_ascii (p := fun c => c.toUpper.isAlpha || c.toUpper == c)
        (by decide) hc
      simpa using hletter
    · refine .inr (dif_neg fun hlower => hc ?_)
      simp only [UInt32.le_iff_toNat_le] at hlower
      exact Nat.lt_of_le_of_lt hlower.2 (by decide)
  rcases hsame with halpha | hsame
  · constructor
    · rintro rfl
      rw [hd] at halpha
      cases halpha
    · rintro rfl
      have hlow : ¬ (c.val ≥ 'a'.val ∧ c.val ≤ 'z'.val) := by
        intro hlow
        have hc : c.isAlpha = true := by
          rw [isAlpha_iff]
          simp only [UInt32.le_iff_toNat_le] at hlow
          exact .inr hlow
        rw [hd] at hc
        cases hc
      exact dif_neg hlow
  · rw [hsame]

/-- A text without letters. -/
def isSymbolic (w : Text) : Bool := w.all (!·.isAlpha)

/-- Texts of the same letters open with the same symbols. -/
lemma isPrefix_of_asciiUpper_eq {w x y : Text} (hw : isSymbolic w = true)
    (h : x.asciiUpper = y.asciiUpper) (hx : w <+: x) : w <+: y := by
  induction w generalizing x y with
  | nil => exact List.nil_prefix
  | cons d w ih =>
    obtain ⟨rest, rfl⟩ := hx
    rcases y with _ | ⟨c, y⟩
    · simp [asciiUpper] at h
    · obtain ⟨hd, hsymbolic⟩ : d.isAlpha = false ∧ isSymbolic w = true := by
        simpa [isSymbolic] using hw
      obtain ⟨hhead, htail⟩ := List.cons.inj h
      have hupper : d.toUpper = d := (toUpper_eq_iff hd).2 rfl
      rw [hupper] at hhead
      obtain rfl := (toUpper_eq_iff hd).1 hhead.symm
      have hrest := ih hsymbolic htail ⟨rest, rfl⟩
      exact List.prefix_cons_inj c |>.2 hrest

section Symbols

variable {w x y : Text} (hw : isSymbolic w = true) (h : x.asciiUpper = y.asciiUpper)

include hw h

lemma opensWith_eq_of_asciiUpper_eq : opensWith w x = opensWith w y := by
  rw [Bool.eq_iff_iff, opensWith_iff, opensWith_iff]
  exact ⟨isPrefix_of_asciiUpper_eq hw h, isPrefix_of_asciiUpper_eq hw h.symm⟩

lemma closesWith_eq_of_asciiUpper_eq : closesWith w x = closesWith w y := by
  have hreverse : asciiUpper x.reverse = asciiUpper y.reverse := by
    simpa [asciiUpper] using congrArg List.reverse h
  exact opensWith_eq_of_asciiUpper_eq (by simpa [isSymbolic] using hw) hreverse

lemma eq_symbol_iff_of_asciiUpper_eq : x = w ↔ y = w := by
  have hlength : x.length = y.length := by simpa [asciiUpper] using congrArg List.length h
  constructor
  · rintro rfl
    exact ((isPrefix_of_asciiUpper_eq hw h (List.prefix_refl _)).eq_of_length hlength).symm
  · rintro rfl
    exact ((isPrefix_of_asciiUpper_eq hw h.symm (List.prefix_refl _)).eq_of_length
      hlength.symm).symm

end Symbols

/-! ## Traces -/

/-- Whether a token is a sign depends on the kind of what was written before it. -/
lemma isUnary_congr {before before' : Option Trace} {t t' : Token}
    (hbefore : before.map Trace.kind = before'.map Trace.kind) (hkind : t.kind = t'.kind)
    (htext : t.kind = .operator → t.text = t'.text) : isUnary before t = isUnary before' t' := by
  by_cases hop : t.kind = .operator
  · rcases before with _ | b <;> rcases before' with _ | b' <;>
      simp_all [isUnary]
  · have hop' : t'.kind ≠ .operator := hkind ▸ hop
    have hno : (t.kind == .operator) = false := beq_eq_false_iff_ne.2 hop
    have hno' : (t'.kind == .operator) = false := beq_eq_false_iff_ne.2 hop'
    simp only [isUnary, hno, hno', Bool.false_and]

namespace Stroke

/-- The trace that a stroke leaves on a line, given whether it is a unary sign. -/
def trace (unary : Bool) : Stroke → Trace
  | write t => ⟨t.kind, t.text, some t.stop, unary⟩
  | glue t => .after none t
  | mark kind text => .mark kind text
  | comment c => .remark c.token.kind

@[simp] lemma kind_trace (unary : Bool) (s : Stroke) : (s.trace unary).kind = s.kind := by
  cases s <;> rfl

end Stroke

/-- Behind some strokes, a token may be read as a unary sign or not: at the start of a line it is
read one way, behind the last stroke maybe another. -/
def Signs (es : List Stroke) (t : Token) (unary : Bool) : Prop :=
  unary = isUnary none t ∨ ∃ s ∈ es.getLast?, unary = isUnary (some (.remark s.kind)) t

/-- The traces that a script and its recasting can leave at the end of an open line behind some
strokes.  A mark that could not be written where the page stands is put on a line of its own. -/
inductive Leaves (f : Recasting) : List Stroke → Trace → Trace → Prop
  | put (es : List Stroke) (s : Stroke) (unary : Bool) (h : ∀ t, s = .write t → Signs es t unary) :
    Leaves f (es ++ [s]) (s.trace unary) ((s.recast f).trace unary)
  | hoist (es : List Stroke) (t : Token) :
    Leaves f (es ++ [.write t]) (.mark t.kind t.text) (.mark t.kind (f t).text)

/-- Behind each stroke, the next token needs a space in both scripts or in neither.  The stroke may
be a sign; then it is taken for one in front of an operand only where it can be that. -/
def Agrees (f : Recasting) (all : List Stroke) : Prop :=
  ∀ es s u rest unary, all = es ++ s :: .write u :: rest →
    (∀ t, s = .write t → Signs es t unary) →
    needsSpace (s.trace unary) u = needsSpace ((s.recast f).trace unary) (f u)

/-- The token may stay close to what it touches in the source: an opening parenthesis, an opening
bracket or a string. -/
def Token.bindsLeft (t : Token) : Bool :=
  t.kind == .openParen || t.kind == .string || (t.kind == .operator && t.text == "[")

lemma Token.isComment_of_bindsLeft {t : Token} (h : t.bindsLeft = true) : t.isComment = false := by
  unfold Token.isComment
  cases hk : t.kind <;> simp_all [Token.bindsLeft]

lemma apartUnlessTouching_of_not_bindsLeft {before : Trace} {t : Token}
    (h : t.bindsLeft = false) : apartUnlessTouching before t = true := by
  unfold apartUnlessTouching
  cases hk : t.kind <;> simp_all [Token.bindsLeft]

namespace Recasting

variable (f : Recasting)

lemma isUnary_eq {before before' : Option Trace} (t : Token)
    (h : before.map Trace.kind = before'.map Trace.kind) :
    isUnary before t = isUnary before' (f t) :=
  isUnary_congr h (f.kind t).symm fun hop => (f.text_eq t (by simp [Token.isKeyword, hop])).symm

/-- Traces that agree about touching, where that matters, say the same before a token and before its
recasting. -/
lemma needsSpace_eq {before before' : Trace} (u : Token) (hkind : before.kind = before'.kind)
    (hletters : before.text.asciiUpper = before'.text.asciiUpper)
    (hunary : before.unary = before'.unary)
    (hstop : u.bindsLeft = true →
      ((before.stop = some u.offset) ↔ (before'.stop = some (f u).offset))) :
    needsSpace before u = needsSpace before' (f u) := by
  have hu := (f.letters_eq u).symm
  have hopens : opensComment before u = opensComment before' (f u) := by
    simp only [opensComment]
    rw [opensWith_eq_of_asciiUpper_eq (by decide) hu, opensWith_eq_of_asciiUpper_eq (by decide) hu,
      closesWith_eq_of_asciiUpper_eq (by decide) hletters,
      closesWith_eq_of_asciiUpper_eq (by decide) hletters]
  have hsame : ∀ w : Text, isSymbolic w = true →
      (u.text = w ↔ (f u).text = w) ∧ (before.text = w ↔ before'.text = w) := fun w hw =>
    ⟨eq_symbol_iff_of_asciiUpper_eq hw hu, eq_symbol_iff_of_asciiUpper_eq hw hletters⟩
  have hbinds : binds before u = binds before' (f u) := by
    rw [Bool.eq_iff_iff]
    simp only [binds, Bool.or_eq_true, beq_iff_eq]
    rw [(hsame "::" (by decide)).1, (hsame "::" (by decide)).2, (hsame "]" (by decide)).1,
      (hsame "[" (by decide)).2]
  have hapart : apartUnlessTouching before u = apartUnlessTouching before' (f u) := by
    have hbracket : u.text = "[".toList ↔ (f u).text = "[".toList := (hsame "[" (by decide)).1
    by_cases hbinds : u.bindsLeft = true
    · have hstop' : (before.stop != some u.offset) = (before'.stop != some (f u).offset) := by
        rw [Bool.eq_iff_iff]
        simpa using not_congr (hstop hbinds)
      simp only [apartUnlessTouching, hstop', hkind, f.kind, hbracket]
    · have hbinds' : (f u).bindsLeft = false := by
        rw [Bool.not_eq_true] at hbinds
        rw [← hbinds, Bool.eq_iff_iff]
        simp only [Token.bindsLeft, f.kind, Bool.or_eq_true, Bool.and_eq_true, beq_iff_eq, hbracket]
      rw [apartUnlessTouching_of_not_bindsLeft (by simpa using hbinds),
        apartUnlessTouching_of_not_bindsLeft hbinds']
  simp only [needsSpace, hopens, hbinds, hapart, hkind, hunary, f.kind]

lemma letters_trace (unary : Bool) (s : Stroke) :
    (s.trace unary).text.asciiUpper = ((s.recast f).trace unary).text.asciiUpper := by
  cases s with
  | write t => exact (f.letters_eq t).symm
  | glue t => exact (f.letters_eq t).symm
  | mark kind text => rfl
  | comment c => rfl

lemma unary_trace (unary : Bool) (s : Stroke) :
    (s.trace unary).unary = ((s.recast f).trace unary).unary := by
  cases s with
  | write t => rfl
  | glue t => exact @isUnary_eq f none none t rfl
  | mark kind text => rfl
  | comment c => rfl

end Recasting

/-- A recasting agrees where it does about tokens that touch. -/
lemma agrees_of_touching {f : Recasting} {all : List Stroke}
    (h : ∀ es s t u rest unary, all = es ++ s :: .write u :: rest → (s = .write t ∨ s = .glue t) →
      (∀ v, s = .write v → Signs es v unary) →
      (u.bindsLeft = true → ((t.stop = u.offset) ↔ ((f t).stop = (f u).offset))) ∨
        needsSpace (s.trace unary) u = needsSpace ((s.recast f).trace unary) (f u)) :
    Agrees f all := by
  intro es s u rest unary hall hsigns
  have hfree : (u.bindsLeft = true → ((s.trace unary).stop = some u.offset ↔
      ((s.recast f).trace unary).stop = some (f u).offset)) →
      needsSpace (s.trace unary) u = needsSpace ((s.recast f).trace unary) (f u) :=
    fun hstop => f.needsSpace_eq u (by simp) (f.letters_trace unary s) (f.unary_trace unary s) hstop
  cases s with
  | write t =>
    rcases h es _ t u rest unary hall (.inl rfl) hsigns with htouch | hspace
    · exact hfree (by simpa [Stroke.trace] using htouch)
    · exact hspace
  | glue t =>
    rcases h es _ t u rest unary hall (.inr rfl) hsigns with htouch | hspace
    · exact hfree (by simpa [Stroke.trace, Trace.after] using htouch)
    · exact hspace
  | mark kind text => exact hfree fun _ => ⟨nofun, nofun⟩
  | comment c => exact hfree fun _ => ⟨nofun, nofun⟩

namespace Leaves

variable {f : Recasting} {es : List Stroke} {τ τ' : Trace}

/-- What a stroke leaves is of its kind, in both scripts. -/
lemma kind (h : Leaves f es τ τ') : ∃ s ∈ es.getLast?, τ.kind = s.kind ∧ τ'.kind = s.kind := by
  cases h with
  | put es s unary h => exact ⟨s, by simp, by simp, by simp⟩
  | hoist es t => exact ⟨.write t, by simp, rfl, rfl⟩

/-- Where a recasting agrees, the next token needs a space in both scripts or in neither. -/
lemma needsSpace_eq (h : Leaves f es τ τ') {all rest : List Stroke} {u : Token}
    (hf : Agrees f all) (hall : all = es ++ .write u :: rest) :
    needsSpace τ u = needsSpace τ' (f u) := by
  cases h with
  | put es s unary h => exact hf es s u rest unary (by simpa using hall) h
  | hoist es t =>
    exact f.needsSpace_eq u rfl (f.letters_eq t).symm rfl fun _ => ⟨nofun, nofun⟩

end Leaves

/-! ## Writing on one line -/

/-- A stroke put on a line. -/
def Line.take (case : KeywordCase) (l : Line) : Stroke → Line
  | .write t => l.write case t
  | .glue t => l.glue t
  | .mark kind text => l.attach kind text
  | .comment c => l.remark c.token

section Flat

variable (case : KeywordCase)

lemma writeAll_eq (tokens : List Token) (l : Line) :
    writeAll case tokens l = (tokens.map .write).foldl (Line.take case) l := by
  rw [writeAll, List.foldl_map]
  rfl

lemma remarkAll_eq (comments : List Comment) (l : Line) :
    remarkAll comments l = (comments.map .comment).foldl (Line.take case) l := by
  rw [remarkAll, List.foldl_map]
  rfl

lemma commaAfter_eq (comma : Bool) (l : Line) :
    commaAfter comma l = (commaStrokes comma).foldl (Line.take case) l := by
  cases comma <;> rfl

mutual

/-- Writing a node flat takes its strokes. -/
lemma Node.flat_eq (n : Node) (l : Line) :
    n.flat case l = n.strokes.foldl (Line.take case) l := by
  match n with
  | .token t => rfl
  | .comment c => rfl
  | .query opening script closing =>
    simp only [Node.flat, Node.strokes, List.foldl_cons, List.foldl_append,
      flatStatements_eq script]
    rfl
  | .list opening operands closing =>
    simp only [Node.flat, Node.strokes, List.foldl_cons, List.foldl_append,
      flatContents_eq operands]
    rfl

lemma flatNodes_eq (ns : List Node) (l : Line) :
    flatNodes case ns l = (nodesStrokes ns).foldl (Line.take case) l := by
  match ns with
  | [] => rfl
  | n :: ns =>
    rw [flatNodes, nodesStrokes, List.foldl_append, n.flat_eq, flatNodes_eq ns]

lemma flatContents_eq (is : List (Item Node)) (l : Line) :
    flatContents case is l = (contentsStrokes is).foldl (Line.take case) l := by
  match is with
  | [] => rfl
  | ⟨nodes, comma⟩ :: is =>
    rw [flatContents, contentsStrokes, List.foldl_append, flatNodes_eq nodes, flatContents_eq is]

lemma flatItems_eq (is : List (Item Node)) (l : Line) :
    flatItems case is l = (itemsStrokes is).foldl (Line.take case) l := by
  match is with
  | [] => rfl
  | ⟨nodes, comma⟩ :: is =>
    rw [flatItems, itemsStrokes, List.foldl_append, List.foldl_append, flatNodes_eq nodes,
      commaAfter_eq case, flatItems_eq is]

lemma flatBody_eq (body : Body Node) (l : Line) :
    flatBody case body l = (bodyStrokes body).foldl (Line.take case) l := by
  match body with
  | .items is => exact flatItems_eq is l
  | .construction ⟨new, typeName, opening, arguments, closing⟩ =>
    simp only [flatBody, bodyStrokes, List.foldl_append, List.foldl_cons, List.foldl_nil,
      flatItems_eq arguments, writeAll_eq]
    rfl

lemma flatClauses_eq (cs : List (Clause Node)) (l : Line) :
    flatClauses case cs l = (clausesStrokes cs).foldl (Line.take case) l := by
  match cs with
  | [] => rfl
  | ⟨kind, keywords, leading, body, trailing⟩ :: cs =>
    simp only [flatClauses, clausesStrokes, List.foldl_append, remarkAll_eq case, writeAll_eq,
      flatBody_eq body, flatClauses_eq cs]

lemma flatStatements_eq (ss : List (Statement Node)) (l : Line) :
    flatStatements case ss l = (statementsStrokes ss).foldl (Line.take case) l := by
  match ss with
  | [] => rfl
  | ⟨clauses, terminated, trailing⟩ :: ss =>
    have hended : ∀ l : Line, (if terminated then l.attach .semicolon ";" else l) =
        (endStrokes terminated).foldl (Line.take case) l := by
      intro l
      cases terminated <;> rfl
    simp only [flatStatements, statementsStrokes, List.foldl_append, flatClauses_eq clauses,
      hended, remarkAll_eq case, flatStatements_eq ss]

end

end Flat

/-! ## Lines alike

What two texts have in common is left open (`Likeness`), for the two uses ask for different things:
that keywords are the same up to their case, or that texts are equal.  Either way they are equally
long, and that is all that measuring needs.
-/

/-- What two texts have in common where a script and its recasting write them.  They are of the same
length at least, so that nothing is moved to another column. -/
structure Likeness where
  like : Text → Text → Prop
  refl : ∀ x, like x x
  length : ∀ x y, like x y → x.length = y.length

/-- Equality as a likeness. -/
def Likeness.eq : Likeness := ⟨Eq, fun _ => rfl, fun _ _ h => h ▸ rfl⟩

/-- The setting of two runs: a script with the strokes `all` printed in a style, and its recasting
printed in a style that differs from it in the case of keywords at most. -/
structure Pair where
  recasting : Recasting
  likeness : Likeness
  style : Style
  style' : Style
  all : List Stroke
  indentWidth : style'.indentWidth = style.indentWidth
  maxLineWidth : style'.maxLineWidth = style.maxLineWidth
  oneJoinPerLine : style'.oneJoinPerLine = style.oneJoinPerLine
  /-- Tokens are spelled alike. -/
  spelling : ∀ t, .write t ∈ all → likeness.like (Line.spelling style.keywordCase t)
    (Line.spelling style'.keywordCase (recasting t))
  /-- Parentheses of constructions and comments read the same. -/
  text : ∀ s ∈ all, (∀ t, s ≠ .write t) → (s.recast recasting).text = s.text
  agrees : Agrees recasting all

/-- Pieces are alike. -/
inductive Piece.Alike (L : Likeness) : Piece → Piece → Prop
  | gap : Piece.Alike L .gap .gap
  | code {x y : Text} (h : L.like x y) : Piece.Alike L (.code x) (.code y)
  | remark (x : Text) : Piece.Alike L (.remark x) (.remark x)

lemma Piece.Alike.length {L : Likeness} {p q : Piece} (h : p.Alike L q) :
    p.text.length = q.text.length := by
  cases h with
  | gap => rfl
  | code h => exact L.length _ _ h
  | remark x => rfl

/-- Lines are alike. -/
structure Line.Alike (L : Likeness) (l m : Line) : Prop where
  indent : l.indent = m.indent
  pieces : List.Forall₂ (Piece.Alike L) l.pieces m.pieces
  note : l.note = m.note

namespace Line.Alike

variable {L : Likeness} {l m : Line}

lemma codeWidth (h : l.Alike L m) : l.codeWidth = m.codeWidth := by
  have hpieces := h.pieces
  unfold Line.codeWidth
  generalize l.pieces = ps, m.pieces = qs at hpieces
  induction hpieces with
  | nil => rfl
  | cons hp _ ih => simp only [List.foldr_cons, ih, hp.length]

lemma width (h : l.Alike L m) : l.width = m.width := by
  rw [Line.width, Line.width, h.indent, h.codeWidth]

lemma isEmpty (h : l.Alike L m) : l.pieces.isEmpty = m.pieces.isEmpty := by
  have hpieces := h.pieces
  cases hpl : l.pieces <;> cases hpm : m.pieces <;> simp_all

lemma isClosed (h : l.Alike L m) : l.isClosed = m.isClosed := by
  rw [Line.isClosed, Line.isClosed, h.isEmpty, h.note]

end Line.Alike

/-- Two open lines behind some strokes: alike, and with traces that the strokes can leave. -/
structure Line.Level (P : Pair) (es : List Stroke) (l m : Line) : Prop extends
    l.Alike P.likeness m where
  isOpen : l.note = none
  last : (l.last = none ∧ m.last = none) ∨
    ∃ τ τ', l.last = some τ ∧ m.last = some τ' ∧ Leaves P.recasting es τ τ'

namespace Line.Level

variable {P : Pair} {es rest : List Stroke} {l m : Line}

lemma empty (P : Pair) (es : List Stroke) (indent : Nat) :
    (Line.empty indent).Level P es (.empty indent) :=
  ⟨⟨rfl, .nil, rfl⟩, rfl, .inl ⟨rfl, rfl⟩⟩

/-- A token is read the same way on both lines. -/
lemma isUnary_eq (h : l.Level P es m) (t : Token) :
    isUnary l.last t = isUnary m.last (P.recasting t) ∧ Signs es t (isUnary l.last t) := by
  rcases h.last with ⟨hl, hm⟩ | ⟨τ, τ', hl, hm, hleaves⟩
  · rw [hl, hm]
    exact ⟨P.recasting.isUnary_eq t rfl, .inl rfl⟩
  · obtain ⟨s, hs, hkind, hkind'⟩ := hleaves.kind
    rw [hl, hm]
    refine ⟨P.recasting.isUnary_eq t (by simp [hkind, hkind']), .inr ⟨s, hs, ?_⟩⟩
    exact isUnary_congr (by simp [hkind, Trace.remark]) rfl fun _ => rfl

lemma spaced (h : l.Level P es m) {t : Token} (hall : P.all = es ++ .write t :: rest) :
    List.Forall₂ (Piece.Alike P.likeness) (l.spaced t) (m.spaced (P.recasting t)) := by
  have hspace : l.last.any (needsSpace · t) = m.last.any (needsSpace · (P.recasting t)) := by
    rcases h.last with ⟨hl, hm⟩ | ⟨τ, τ', hl, hm, hleaves⟩
    · rw [hl, hm]
      rfl
    · rw [hl, hm]
      exact hleaves.needsSpace_eq P.agrees hall
  unfold Line.spaced
  rw [hspace]
  split
  · exact .cons .gap h.pieces
  · exact h.pieces

/-- **One stroke on both lines** leaves them alike.  Agreement is asked for at this one place: the
stroke needs a space on both lines or on neither. -/
lemma take (h : l.Level P es m) {s : Stroke} (hall : P.all = es ++ s :: rest) :
    (l.take P.style.keywordCase s).Level P (es ++ [s])
      (m.take P.style'.keywordCase (s.recast P.recasting)) := by
  have hmem : s ∈ P.all := by simp [hall]
  have hput : ∀ unary : Bool, (∀ t, s = .write t → Signs es t unary) →
      Leaves P.recasting (es ++ [s]) (s.trace unary) ((s.recast P.recasting).trace unary) :=
    fun unary hsigns => .put es s unary hsigns
  cases s with
  | write t =>
    obtain ⟨hunary, hsigns⟩ := h.isUnary_eq t
    refine ⟨⟨h.indent, .cons (.code (P.spelling t hmem)) (h.spaced hall), h.note⟩, h.isOpen,
      .inr ⟨_, _, rfl, ?_, hput (isUnary l.last t) fun u hu => ?_⟩⟩
    · simp [Line.take, Line.write, Stroke.trace, Trace.after, hunary]
    · obtain rfl := Stroke.write.inj hu
      exact hsigns
  | glue t =>
    have htext : (P.recasting t).text = t.text := P.text _ hmem (by simp)
    refine ⟨⟨h.indent, ?_, h.note⟩, h.isOpen, .inr ⟨_, _, rfl, rfl, hput false (by simp)⟩⟩
    simp only [Line.take, Line.glue, Stroke.recast_glue, htext]
    exact .cons (.code (P.likeness.refl _)) h.pieces
  | mark kind text =>
    exact ⟨⟨h.indent, .cons (.code (P.likeness.refl _)) h.pieces, h.note⟩, h.isOpen,
      .inr ⟨_, _, rfl, rfl, hput false (by simp)⟩⟩
  | comment c =>
    have htext : (P.recasting c.token).text = c.token.text := P.text _ hmem (by simp)
    refine ⟨⟨h.indent, ?_, h.note⟩, h.isOpen, .inr ⟨_, _, rfl, rfl, hput false (by simp)⟩⟩
    simp only [Line.take, Line.remark, Stroke.recast_comment, Comment.recast, htext, h.isEmpty]
    refine .cons (.remark _) ?_
    split
    · exact .nil
    · exact .cons .gap h.pieces

/-- Some strokes on both lines leave them alike. -/
lemma foldl_take {ss : List Stroke} (h : l.Level P es m) (hall : P.all = es ++ (ss ++ rest)) :
    (ss.foldl (Line.take P.style.keywordCase) l).Level P (es ++ ss)
      ((ss.map (·.recast P.recasting)).foldl (Line.take P.style'.keywordCase) m) := by
  induction ss generalizing es l m with
  | nil => simpa using h
  | cons s ss ih =>
    rw [List.cons_append] at hall
    have hss := ih (h.take hall) (by simpa using hall)
    simpa using hss

end Line.Level

/-- **Both scripts measure the same** on one line, with their own choices of case.  So whatever
depends on a width comes out the same for both. -/
lemma flatWidth_recast {P : Pair} {es rest : List Stroke} {nodes : List Node}
    (hall : P.all = es ++ (nodesStrokes nodes ++ rest)) :
    flatWidth P.style.keywordCase nodes =
      flatWidth P.style'.keywordCase (recastNodes P.recasting nodes) := by
  rw [flatWidth, flatWidth, flatNodes_eq, flatNodes_eq, nodesStrokes_recast]
  exact ((Line.Level.empty P es 0).foldl_take hall).codeWidth

end SqlInlay.Sql
