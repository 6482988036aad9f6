import SqlInlay.Proofs.Host.Contents
import SqlInlay.Proofs.Host.Layouts

/-!
# Layouts between triple quotes

A text that is laid out between triple quotes is read up to the closing quotes, and no further.
What could end it early are three quotes in a row, and they may come about in three ways: in the
text, at the end of the text together with the closing quotes, or by laying the text out.

**Spreading.**  `layOut` puts blanks behind line feeds (`Spread`), and blanks in front of the text
and behind it (`exists_spread_layOut`).  No blank belongs to quotes, so what may stand between
quotes may be spread there (`Walks.spread`), and layout brings no quotes together.

**Escaped texts** may stand between triple quotes, because every third quote in a row is escaped
(`walks_escapeBlock`).

**Raw texts** may if they do not hold the closing quotes (`walks_rawBlock`).  Where the text ends in
quotes they run together with the closing ones; a rule under which the last quotes of a run close
takes the others for text (`content?_quotes`).

The outcome for the three kinds of blocks is `content?_escapedBlock`, `content?_rawBlock` and
`content?_plainBlock`.
-/

namespace SqlInlay.Host

open SqlInlay.Text

/-! ## Spreading -/

/-- The second text is the first with blanks behind some line feeds.  Laying a text out behind a
margin is of this kind. -/
inductive Spread : Text → Text → Prop
  | nil : Spread [] []
  | newline {m t u : Text} (hm : isBlankText m = true) (h : Spread t u) :
      Spread ('\n' :: t) ('\n' :: (m ++ u))
  | keep {c : Char} {t u : Text} (h : Spread t u) : Spread (c :: t) (c :: u)

namespace Spread

variable {t u w : Text}

lemma refl (t : Text) : Spread t t := by
  induction t with
  | nil => exact .nil
  | cons c t ih => exact .keep ih

lemma append_left (h : Spread t u) (s : Text) : Spread (s ++ t) (s ++ u) := by
  induction s with
  | nil => exact h
  | cons c s ih => exact .keep ih

lemma thinned (h : Spread t u) : Thinned u t := by
  induction h with
  | nil => exact .nil
  | newline hm h ih => exact .keep ((Thinned.of_isBlankText hm).append ih)
  | keep h ih => exact .keep ih

/-- What does not start with a blank starts the text if it starts the spread one. -/
lemma prefix_of (h : Spread t u) (hw : ∀ c ∈ w, isBlank c = false) {rest : Text}
    (hbegins : w <+: u ++ rest) : w <+: t ++ rest := by
  induction h generalizing w with
  | nil => exact hbegins
  | newline hm h ih =>
    cases w with
    | nil => exact List.nil_prefix
    | cons d w =>
      have hd := hw d (List.mem_cons_self ..)
      rw [(List.cons_prefix_cons.1 hbegins).1] at hd
      cases hd
  | keep h ih =>
    cases w with
    | nil => exact List.nil_prefix
    | cons d w =>
      rw [List.forall_mem_cons] at hw
      rw [List.cons_append, List.cons_prefix_cons] at hbegins ⊢
      exact ⟨hbegins.1, ih hw.2 hbegins.2⟩

end Spread

lemma unlines_append_cons (s l : Text) (ls : List Text) :
    unlines ((s ++ l) :: ls) = s ++ unlines (l :: ls) := by
  cases ls with
  | nil => rfl
  | cons m ls => exact List.append_assoc ..

lemma exists_indented {margin : Text} (hmargin : isBlankText margin = true) (l : Text) :
    ∃ m, indented margin l = m ++ l ∧ isBlankText m = true := by
  unfold indented
  split
  · rename_i hl
    rw [List.isEmpty_iff.1 hl]
    exact ⟨[], rfl, rfl⟩
  · exact ⟨margin, rfl, hmargin⟩

lemma spread_unlines {margin : Text} (hmargin : isBlankText margin = true) (first : Text)
    (rest : List Text) :
    Spread (unlines (first :: rest)) (unlines (first :: rest.map (indented margin))) := by
  induction rest generalizing first with
  | nil => exact .refl _
  | cons l ls ih =>
    obtain ⟨m, hm, hblank⟩ := exists_indented hmargin l
    have hspread := Spread.newline hblank (ih l)
    rw [← unlines_append_cons, ← hm] at hspread
    exact hspread.append_left first

/-- What stands in front of the closing quotes. -/
def BlockLayout.closingPart (block : BlockLayout) : Text :=
  if block.closesOnOwnLine then '\n' :: block.closingIndent else []

lemma BlockLayout.Sound.closingPart {block : BlockLayout} (hblock : block.Sound) :
    isBlankText block.closingPart = true := by
  unfold BlockLayout.closingPart
  split
  · exact hblock.closing
  · rfl

/-- A text is spread, and put between blanks. -/
lemma exists_spread_layOut {block : BlockLayout} (hblock : block.Sound) (t : Text) :
    ∃ front spread, layOut t block = front ++ (spread ++ block.closingPart) ∧
      isBlankText front = true ∧ Spread t spread := by
  obtain ⟨l, ls, hls⟩ := List.exists_cons_of_ne_nil (lines_ne_nil t)
  obtain ⟨m, hm, hblank⟩ := exists_indented hblock.margin l
  have hspread := spread_unlines hblock.margin l ls
  rw [← hls, unlines_lines] at hspread
  unfold layOut
  simp only [hls, layOutLines]
  split
  · refine ⟨'\n' :: m, _, ?_, hblank, hspread⟩
    rw [hm, unlines_append_cons]
    simp only [BlockLayout.closingPart, List.append_assoc, List.cons_append, List.nil_append]
  · exact ⟨[], _, rfl, rfl, hspread⟩

lemma thinned_layOut {block : BlockLayout} (hblock : block.Sound) (t : Text) :
    Thinned (layOut t block) t := by
  obtain ⟨front, spread, hlaid, hfront, hspread⟩ := exists_spread_layOut hblock t
  have hback := hspread.thinned.append (.of_isBlankText hblock.closingPart)
  have hall := (Thinned.of_isBlankText hfront).append hback
  rwa [← hlaid, List.append_nil] at hall

/-! ## Blanks between quotes -/

/-- A rule for contents between three quotes. -/
structure ContentRule.IsTriple (rule : ContentRule) (q : Char) : Prop where
  quote : q = '"' ∨ q = '\''
  delimiter : rule.delimiter = [q, q, q]
  multiline : rule.multiline = true
  templates : rule.templates = false

lemma ContentRule.IsTriple.not_isBlank {rule : ContentRule} {q : Char} (h : rule.IsTriple q) :
    isBlank q = false := by
  rcases h.quote with rfl | rfl <;> rfl

namespace Walks

variable {rule : ContentRule} {q : Char} {rest s t u : Text}

lemma append (hu : Walks rule (t ++ rest) u) (ht : Walks rule rest t) :
    Walks rule rest (u ++ t) := by
  induction hu with
  | nil => exact ht
  | pair hescapes h ih => exact .pair hescapes ih
  | plain hescape hline htemplate hclose h ih =>
    rw [← List.append_assoc] at htemplate hclose
    exact .plain hescape hline htemplate hclose ih

/-- A blank means nothing to the scan. -/
lemma blank {c : Char} (h : Walks rule rest u) (hrule : rule.IsTriple q)
    (hc : isBlank c = true) : Walks rule rest (c :: u) := by
  have hne : ∀ d : Char, isBlank d = false → c ≠ d := by
    intro d hd heq
    rw [heq, hd] at hc
    cases hc
  refine .plain (fun h => hne '\\' (by decide) h.1) (fun h => ?_)
    (fun _ h => absurd h (hne '$' (by decide))) ?_ h
  · rw [hrule.multiline] at h
    exact Bool.false_ne_true h.2
  · rw [hrule.delimiter]
    exact after?_cons_eq_none (hne q hrule.not_isBlank) [q, q] _

lemma blanks (h : Walks rule rest u) (hrule : rule.IsTriple q) (ht : isBlankText t = true) :
    Walks rule rest (t ++ u) := by
  induction t with
  | nil => exact h
  | cons c t ih =>
    simp only [isBlankText, List.all_cons, Bool.and_eq_true] at ht
    exact (ih ht.2).blank hrule ht.1

/-- What may stand between quotes may be spread there. -/
lemma spread (h : Walks rule rest t) (hrule : rule.IsTriple q) (hs : Spread t u) :
    Walks rule rest u := by
  have hquotes : ∀ c ∈ rule.delimiter, isBlank c = false := by
    rw [hrule.delimiter]
    simpa using hrule.not_isBlank
  induction h generalizing u with
  | nil =>
    cases hs
    exact .nil
  | @pair d t hescapes h ih =>
    cases hs with
    | keep hs =>
      cases hs with
      | newline hm hs => exact .pair hescapes ((ih hs).blanks hrule hm)
      | keep hs => exact .pair hescapes (ih hs)
  | @plain c t hescape hline htemplate hclose h ih =>
    cases hs with
    | newline hm hs => exact ((ih hs).blanks hrule hm).blank hrule rfl
    | keep hs =>
      refine .plain hescape hline (fun h => absurd h (by simp [hrule.templates])) ?_ (ih hs)
      rw [after?_eq_none_iff] at hclose ⊢
      intro hbegins
      exact hclose ((Spread.keep hs).prefix_of hquotes hbegins)

/-- What may stand between quotes may be laid out there. -/
lemma layOut {block : BlockLayout} (hblock : block.Sound) (hrule : rule.IsTriple q)
    (h : Walks rule (block.closingPart ++ rest) t) : Walks rule rest (layOut t block) := by
  obtain ⟨front, spread, hlaid, hfront, hspread⟩ := exists_spread_layOut hblock t
  have hclosing := (.nil : Walks rule rest []).blanks hrule hblock.closingPart
  rw [List.append_nil] at hclosing
  rw [hlaid]
  exact ((h.spread hrule hspread).append hclosing).blanks hrule hfront

end Walks

/-! ## Escaped texts -/

section Escaped

variable {written : EscapeRule} {rest : Text}

/-- Behind two quotes in a row, no other quote is written. -/
lemma not_mem_head?_escapeFrom (run : Nat) (hrun : run % 3 = 2)
    (hquote : written.quote = '"' ∨ written.quote = '\'') {t : Text}
    (hrest : t = [] → written.quote ∉ rest.head?) :
    written.quote ∉ (escapeFrom written run t ++ rest).head? := by
  have hbackslash : '\\' ≠ written.quote := by
    rcases hquote with h | h <;> rw [h] <;> decide
  cases t with
  | nil => exact hrest rfl
  | cons c t =>
    rw [escapeFrom]
    split
    · have hescaped : escapeQuote written run t.head? = ['\\', written.quote] := by
        simp [escapeQuote, hrun]
      rw [hescaped]
      simpa using hbackslash
    · rename_i hc
      rcases head?_escapeChar written c t.head? with hhead | hchar
      · rw [List.append_assoc, List.head?_append, hhead]
        simpa using hbackslash
      · rw [hchar]
        simpa using hc

/-- Behind a quote, two more are not written.  If the first of the two is written as it is, the run
is one longer and the next quote is the third, which is escaped. -/
lemma not_prefix_escapeFrom (run : Nat) (hrun : run % 3 ≠ 0)
    (hquote : written.quote = '"' ∨ written.quote = '\'')
    (hguard : written.guarded = true ∨ written.quote ∉ rest.head?) {t : Text}
    (hrest : t = [] → written.quote ∉ rest.head?) :
    ¬ [written.quote, written.quote] <+: escapeFrom written run t ++ rest := by
  intro hbegins
  have hmem : written.quote ∈ (escapeFrom written run t ++ rest).head? := by
    obtain ⟨more, hmore⟩ := hbegins
    rw [← hmore]
    rfl
  by_cases htwo : run % 3 = 2
  · exact not_mem_head?_escapeFrom run htwo hquote hrest hmem
  · have hbackslash : '\\' ≠ written.quote := by
      rcases hquote with h | h <;> rw [h] <;> decide
    cases t with
    | nil => exact hrest rfl hmem
    | cons c t =>
      rw [escapeFrom] at hbegins hmem
      split at hmem
      · rename_i hc
        rw [if_pos hc] at hbegins
        unfold escapeQuote at hbegins hmem
        split at hmem
        · simp only [List.cons_append, List.head?_cons, Option.mem_some_iff] at hmem
          exact hbackslash hmem
        · rename_i hplain
          rw [if_neg hplain] at hbegins
          -- One quote is written as it is; behind it, the next one is the third.
          have hnext : written.quote ∈ (escapeFrom written (run + 1) t ++ rest).head? := by
            obtain ⟨more, hmore⟩ := hbegins
            have htail : written.quote :: more = escapeFrom written (run + 1) t ++ rest :=
              (List.cons.inj hmore).2
            rw [← htail]
            rfl
          refine not_mem_head?_escapeFrom (run + 1) (by omega) hquote (fun ht => ?_) hnext
          refine hguard.resolve_left ?_
          intro hguarded
          simp [hguarded, ht] at hplain
      · rename_i hc
        rcases head?_escapeChar written c t.head? with hhead | hchar
        · rw [List.append_assoc, List.head?_append, hhead] at hmem
          exact hbackslash (Option.some.inj hmem)
        · rw [hchar] at hmem
          exact hc (Option.some.inj hmem)

/-- **A text escaped for a block** may stand between triple quotes, where closing quotes follow it
at once or something that is no quote.  In the first case the last quote of the text is escaped. -/
lemma walks_escapeBlock {rule : ContentRule} (hrule : rule.IsTriple written.quote)
    (hescapes : rule.escapes = true)
    (hguard : written.guarded = true ∨ written.quote ∉ rest.head?) (t : Text) :
    Walks rule rest (escape written t) := by
  have hfits : Fits written rule :=
    ⟨hrule.quote, ⟨_, hrule.delimiter⟩, hescapes, fun _ => hrule.multiline,
      fun h => absurd h (by simp [hrule.templates])⟩
  have hfrom : ∀ run, Walks rule rest (escapeFrom written run t) := by
    induction t with
    | nil => exact fun _ => .nil
    | cons c t ih =>
      intro run
      rw [escapeFrom]
      split
      · unfold escapeQuote
        split
        · exact .pair hescapes (ih _)
        · rename_i hplain
          simp only [Bool.or_eq_true, Bool.and_eq_true, beq_iff_eq, not_or, not_and] at hplain
          refine .plain ?_ ?_ (fun h => absurd h (by simp [hrule.templates])) ?_ (ih _)
          · intro h
            rcases hrule.quote with hq | hq <;> rw [hq] at h <;> exact absurd h.1 (by decide)
          · intro h
            rw [hrule.multiline] at h
            exact Bool.false_ne_true h.2
          · rw [hrule.delimiter, after?_eq_none_iff]
            intro hbegins
            refine not_prefix_escapeFrom (run + 1) (by omega) hrule.quote hguard ?_
              (List.cons_prefix_cons.1 hbegins).2
            intro ht
            refine hguard.resolve_left ?_
            intro hguarded
            simp [hguarded, ht] at hplain
      · rename_i hc
        exact hfits.walks_escapeChar hc (fun h => absurd h (by simp [hrule.templates])) (ih 0)
  exact hfrom 0

end Escaped

/-! ## Raw texts -/

section Raw

variable {rule : ContentRule} {q : Char} {rest t : Text}

/-- Quotes that a text does not hold do not start in it, unless it ends in one of them. -/
lemma walks_rawBlock (hrule : rule.IsTriple q) (ht : ¬ [q, q, q] <:+: t)
    (hquote : t.getLast? ≠ some q) (hbackslash : rule.escapes = true → t.getLast? ≠ some '\\') :
    Walks rule rest t := by
  refine walks_raw hrule.templates (.inl hrule.multiline) ?_ hbackslash
  intro c u hsuffix
  obtain ⟨front, hfront⟩ := hsuffix
  have hlast : t.getLast? = (c :: u).getLast? := by
    rw [← hfront, List.getLast?_append_of_ne_nil _ (List.cons_ne_nil c u)]
  rw [hrule.delimiter, after?_eq_none_iff]
  rintro ⟨more, hmore⟩
  obtain ⟨rfl, hmore₁⟩ := List.cons.inj hmore
  cases u with
  | nil => exact hquote hlast
  | cons d u =>
    obtain ⟨rfl, hmore₂⟩ := List.cons.inj hmore₁
    cases u with
    | nil => exact hquote hlast
    | cons e u =>
      obtain ⟨rfl, -⟩ := List.cons.inj hmore₂
      exact ht ⟨front, u, by rw [← hfront]; simp⟩

lemma content?_closing (hrule : rule.IsTriple q) (t : Text) :
    content? rule ([q, q, q] ++ t) =
      some (if rule.lastQuotes then t.takeWhile (· = '"') else []) := by
  have hafter : after? [q, q, q] (q :: q :: q :: t) = some t := after?_append [q, q, q] t
  have hbackslash : q ≠ '\\' ∧ q ≠ '\n' := by
    rcases hrule.quote with rfl | rfl <;> decide
  change content? rule (q :: q :: q :: t) = _
  rw [content?.eq_def]
  simp [hbackslash, hrule.templates, hrule.delimiter, hafter]

/-- Quotes in front of the closing quotes, of which the last ones close. -/
lemma content?_quotes (hrule : rule.IsTriple '"') (hlast : rule.lastQuotes = true) (n : Nat)
    (hrest : '"' ∉ rest.head?) :
    content? rule (List.replicate n '"' ++ (['"', '"', '"'] ++ rest)) =
      some (List.replicate n '"') := by
  have hswap : List.replicate n '"' ++ ['"', '"', '"'] =
      ['"', '"', '"'] ++ List.replicate n '"' := by
    change List.replicate n '"' ++ List.replicate 3 '"' =
      List.replicate 3 '"' ++ List.replicate n '"'
    rw [List.replicate_append_replicate, List.replicate_append_replicate, Nat.add_comm]
  have hstop : rest.takeWhile (· = '"') = [] := by
    cases rest with
    | nil => rfl
    | cons c rest =>
      refine List.takeWhile_cons_of_neg ?_
      simpa using hrest
  rw [← List.append_assoc, hswap, List.append_assoc, content?_closing hrule, if_pos hlast,
    List.takeWhile_append_of_pos (by simp), hstop, List.append_nil]

end Raw

/-! ## Contents that are read -/

/-- A spread text ends in a blank, or as the text does. -/
lemma Spread.last {t u : Text} (h : Spread t u) :
    ∀ c ∈ u.getLast?, isBlank c = true ∨ c ∈ t.getLast? := by
  induction h with
  | nil => simp
  | @newline m t u hm h ih =>
    intro c hc
    rw [← List.cons_append, List.getLast?_append, Option.mem_def, Option.or_eq_some_iff] at hc
    rcases hc with hc | ⟨-, hc⟩
    · refine (ih c hc).imp id ?_
      intro hlast
      rw [List.getLast?_cons, hlast]
      rfl
    · left
      rcases List.mem_cons.1 (List.mem_of_getLast? hc) with rfl | hmem
      · rfl
      · exact List.all_eq_true.1 hm c hmem
  | @keep d t u h ih =>
    intro c hc
    rw [List.getLast?_cons] at hc ⊢
    cases hu : u.getLast? with
    | some e =>
      rw [hu] at hc
      obtain rfl : e = c := by simpa using hc
      refine (ih e hu).imp id ?_
      intro hlast
      rw [hlast]
      rfl
    | none =>
      obtain rfl := List.getLast?_eq_none_iff.1 hu
      cases h
      exact .inr hc

section Contents

variable {rule : ContentRule} {q : Char} {block : BlockLayout} {t : Text}

lemma last_layOut (hblock : block.Sound) :
    ∀ c ∈ (layOut t block).getLast?,
      isBlank c = true ∨ block.closesOnOwnLine = false ∧ c ∈ t.getLast? := by
  obtain ⟨front, spread, hlaid, hfront, hspread⟩ := exists_spread_layOut hblock t
  have hclosing := hblock.closingPart
  intro c hc
  rw [hlaid, List.getLast?_append, List.getLast?_append, Option.mem_def, Option.or_eq_some_iff,
    Option.or_eq_some_iff] at hc
  rcases hc with (hc | ⟨hnone, hc⟩) | ⟨-, hc⟩
  · exact .inl (List.all_eq_true.1 hclosing c (List.mem_of_getLast? hc))
  · refine (hspread.last c hc).imp id ?_
    intro hlast
    refine ⟨?_, hlast⟩
    unfold BlockLayout.closingPart at hnone
    split at hnone
    · simp at hnone
    · rename_i hinside
      exact (Bool.not_eq_true _).mp hinside
  · exact .inl (List.all_eq_true.1 hfront c (List.mem_of_getLast? hc))

/-- **An escaped block** is read up to its closing quotes.  The text is guarded exactly if the
closing quotes stand behind it on the same line. -/
lemma content?_escapedBlock {written : EscapeRule} (hrule : rule.IsTriple written.quote)
    (hescapes : rule.escapes = true) (hlast : rule.lastQuotes = false) (hblock : block.Sound)
    (hguard : written.guarded = !block.closesOnOwnLine) (t rest : Text) :
    content? rule (layOut (escape written t) block ++
        ([written.quote, written.quote, written.quote] ++ rest)) =
      some (layOut (escape written t) block) := by
  have hguarded : written.guarded = true ∨ written.quote ∉
      (block.closingPart ++ ([written.quote, written.quote, written.quote] ++ rest)).head? := by
    unfold BlockLayout.closingPart
    cases hcloses : block.closesOnOwnLine with
    | true =>
      right
      rw [if_pos rfl]
      rcases hrule.quote with hq | hq <;> rw [hq] <;> simp
    | false =>
      left
      rw [hguard, hcloses]
      rfl
  have hwalks := Walks.layOut hblock hrule (walks_escapeBlock hrule hescapes hguarded t)
  rw [hwalks.content?, content?_closing hrule, hlast]
  simp

/-- **A raw block** in which a backslash protects a quote is read up to its closing quotes, if the
text does not hold them and, where they follow on the same line, ends in neither a quote nor a
backslash. -/
lemma content?_rawBlock (hrule : rule.IsTriple q) (hlast : rule.lastQuotes = false)
    (hblock : block.Sound) (ht : ¬ [q, q, q] <:+: t)
    (hend : block.closesOnOwnLine = false → t.getLast? ≠ some q ∧ t.getLast? ≠ some '\\')
    (rest : Text) :
    content? rule (layOut t block ++ ([q, q, q] ++ rest)) = some (layOut t block) := by
  have hquotes : ∀ c ∈ [q, q, q], isBlank c = false := by simpa using hrule.not_isBlank
  have hwalks : Walks rule ([q, q, q] ++ rest) (layOut t block) := by
    refine walks_rawBlock hrule (fun h => ht ((thinned_layOut hblock t).infix_of hquotes h))
      (fun hlast => ?_) fun _ hlast => ?_
    · rcases last_layOut hblock q hlast with hblank | ⟨hinside, hmem⟩
      · rw [hrule.not_isBlank] at hblank
        cases hblank
      · exact (hend hinside).1 hmem
    · rcases last_layOut hblock '\\' hlast with hblank | ⟨hinside, hmem⟩
      · exact absurd hblank (by decide)
      · exact (hend hinside).2 hmem
  rw [hwalks.content?, content?_closing hrule, hlast]
  simp

/-- **A raw block** without protected quotes is read up to its closing quotes, which may follow
other quotes. -/
lemma content?_plainBlock (hrule : rule.IsTriple '"') (hescapes : rule.escapes = false)
    (hlast : rule.lastQuotes = true) (hblock : block.Sound) (ht : ¬ ['"', '"', '"'] <:+: t)
    {rest : Text} (hrest : '"' ∉ rest.head?) :
    content? rule (layOut t block ++ (['"', '"', '"'] ++ rest)) = some (layOut t block) := by
  have hquotes : ∀ c ∈ ['"', '"', '"'], isBlank c = false := by simpa using hrule.not_isBlank
  have hholds : ¬ ['"', '"', '"'] <:+: layOut t block := fun h =>
    ht ((thinned_layOut hblock t).infix_of hquotes h)
  generalize layOut t block = content at hholds
  obtain ⟨quotes, hsplit, hends⟩ := exists_eq_trimEndWhile_append (· == '"') content
  have hreplicate : quotes = List.replicate quotes.length '"' :=
    List.eq_replicate_iff.2 ⟨rfl, fun c hc => by simpa using hends c hc⟩
  generalize hfront : trimEndWhile (· == '"') content = front at hsplit
  have hwalks : Walks rule (quotes ++ (['"', '"', '"'] ++ rest)) front := by
    refine walks_rawBlock hrule (fun h => hholds ?_) (fun hlast => ?_) fun h => ?_
    · rw [hsplit]
      exact h.trans (List.prefix_append ..).isInfix
    · rw [← hfront] at hlast
      exact absurd (not_of_mem_getLast?_trimEndWhile hlast) (by decide)
    · rw [hescapes] at h
      cases h
  rw [hsplit, List.append_assoc, hwalks.content?, hreplicate,
    content?_quotes hrule hlast _ hrest]
  rfl

end Contents

/-! ## Templates -/

lemma templateFrom?_eq_none_iff (offset : Nat) (t : Text) :
    templateFrom? true offset t = none ↔
      ∀ d, startsTemplate (some d) = true → ¬ ['$', d] <:+: t := by
  induction t generalizing offset with
  | nil => simp [templateFrom?]
  | cons c t ih =>
    cases t with
    | nil =>
      refine iff_of_true rfl ?_
      rintro d - hholds
      have hle := hholds.length_le
      simp at hle
    | cons d t =>
      rw [templateFrom?, if_neg (by simp)]
      split
      · rename_i hopens
        obtain ⟨rfl, hd⟩ := hopens
        refine iff_of_false (by simp) ?_
        intro hnone
        exact hnone d hd ⟨[], t, rfl⟩
      · rename_i hopens
        rw [ih]
        refine forall_congr' fun e => imp_congr_right fun he => not_congr ?_
        have hcons : ['$', e] <:+: c :: d :: t ↔
            ['$', e] <+: c :: d :: t ∨ ['$', e] <:+: d :: t := List.infix_cons_iff
        rw [hcons]
        constructor
        · exact .inr
        · rintro (hbegins | hholds)
          · obtain ⟨more, hmore⟩ := hbegins
            obtain ⟨rfl, htail⟩ := List.cons.inj hmore
            obtain ⟨rfl, -⟩ := List.cons.inj htail
            exact absurd ⟨rfl, he⟩ hopens
          · exact hholds

end SqlInlay.Host
