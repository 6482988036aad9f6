import SqlInlay.Proofs.Host.Expressions

/-!
# What a comment or literal covers

What a scan passes at once is known from its characters and the one behind them: the same characters
in front of the same character are passed at once in any text (`sealedTail?_congr`).  This is what
makes it possible to change a source in one place and to know how it is read in all others, for a
scan looks at a source from where it stands to the end, and in principle everything could depend on
everything behind.

**Comments and character literals** are settled by a few characters and their own end.

**Strings.**  A content is read up to its closing quotes, and may hold templates which are read by
rules of their own.

* `ContentRule.Closes` — what the closing quotes of all languages have in common: they are the same
  character over and over.  A run of quotes that ends in front of a character ends there in any
  text.
* `content?_congr` — the content is read the same, by induction on how it was read: a character, an
  escape, a template or a run of quotes at a time.
* `quoted?_congr` — so is the string, with its letters and its quotes.

Strings that never close are the exception, for the scan looks for the closing quotes as far as it
can before it settles for the end of the line.  Statements about all that a scan passes have a
hypothesis for them, which says that they stay open.

**White space and comments** together go on as long as there are any, so `trivia_congr` asks that
nothing of the kind starts at the place behind.
-/

namespace SqlInlay.Host

open SqlInlay.Text

/-! ## Comments -/

lemma lineLength_congr {v r r' : Text} (h : lineLength (v ++ r) = v.length)
    (hhead : r.head? = r'.head?) : lineLength (v ++ r') = v.length := by
  induction v with
  | nil =>
    cases r with
    | nil =>
      obtain rfl := List.head?_eq_none_iff.1 hhead.symm
      rfl
    | cons x r =>
      obtain ⟨u, rfl⟩ : ∃ u, r' = x :: u := List.head?_eq_some_iff.1 hhead.symm
      have hx : x = '\n' := by
        by_contra hx
        simp [lineLength, hx] at h
      simp [lineLength, hx]
  | cons x v ih =>
    have hx : x ≠ '\n' := by
      rintro rfl
      simp [lineLength] at h
    have hcons : ∀ u : Text, lineLength (x :: u) = lineLength u + 1 := fun u => by
      simp [lineLength, hx]
    rw [List.cons_append, hcons, List.length_cons, Nat.add_right_cancel_iff] at h
    rw [List.cons_append, hcons, List.length_cons, ih h]

lemma blockLength_pos (nested : Bool) (depth : Nat) {t : Text} (h : t ≠ []) :
    0 < blockLength nested depth t := by
  fun_cases blockLength nested depth t <;> first | exact absurd rfl h | omega

lemma blockLength_congr {nested : Bool} {depth : Nat} {v r r' : Text}
    (h : blockLength nested depth (v ++ r) = v.length) (hhead : r.head? = r'.head?) :
    blockLength nested depth (v ++ r') = v.length := by
  have hnil : ∀ {r : Text} {depth : Nat}, blockLength nested depth r = 0 → r = [] := fun h => by
    by_contra hne
    exact absurd h (blockLength_pos nested _ hne).ne'
  induction hn : v.length using Nat.strongRecOn generalizing v depth with
  | ind n ih =>
    subst hn
    match v with
    | [] =>
      obtain rfl := hnil h
      obtain rfl := List.head?_eq_none_iff.1 hhead.symm
      exact h
    | [c] =>
      cases r with
      | nil =>
        obtain rfl := List.head?_eq_none_iff.1 hhead.symm
        exact h
      | cons d r =>
        simp only [List.cons_append, List.nil_append, blockLength, List.length_singleton] at h
        have hpos := blockLength_pos nested depth (List.cons_ne_nil d r)
        split_ifs at h <;> omega
    | c :: d :: v =>
      simp only [List.cons_append, blockLength, List.length_cons] at h ⊢
      split_ifs at h ⊢ with hopen hclose hdepth
      · rw [ih v.length (by simp only [List.length_cons]; omega) (by omega) rfl]
        omega
      · omega
      · rw [ih v.length (by simp only [List.length_cons]; omega) (by omega) rfl]
        omega
      · have hbehind : blockLength nested depth ((d :: v) ++ r') = (d :: v).length :=
          ih (d :: v).length (by simp) (by simp only [List.cons_append, List.length_cons]; omega)
            rfl
        simp only [List.cons_append, List.length_cons] at hbehind
        omega

lemma commentTail?_congr {language : Language} {x : Char} {v r r' : Text}
    (h : commentTail? language x (v ++ r) = some v.length) (hhead : r.head? = r'.head?) :
    commentTail? language x (v ++ r') = some v.length := by
  by_cases hlanguage : language = .python
  · subst hlanguage
    simp only [commentTail?] at h ⊢
    split at h
    · rename_i hx
      rw [if_pos hx, lineLength_congr (Option.some.inj h) hhead]
    · cases h
  · obtain ⟨rfl, ⟨u, hu, hlength⟩ | ⟨u, hu, hlength⟩⟩ := commentTail?_slash hlanguage h
    · obtain ⟨w, rfl⟩ : ∃ w, v = '/' :: w := by
        cases v with
        | nil =>
          rw [List.nil_append] at hu
          rw [hu] at hlength
          simp [lineLength] at hlength
        | cons y w => exact ⟨w, by rw [(List.cons.inj hu).1]⟩
      have hline := lineLength_congr hlength.symm hhead
      cases language <;> first
        | exact absurd rfl hlanguage
        | exact congrArg some hline
    · have hpos := blockLength_pos (language == .kotlin) 0 (List.cons_ne_nil '/' (v ++ r))
      have hblock : blockLength (language == .kotlin) 0 (('/' :: v) ++ r') = ('/' :: v).length :=
        blockLength_congr (by rw [List.cons_append, List.length_cons]; omega) hhead
      obtain ⟨w, rfl⟩ : ∃ w, v = '*' :: w := by
        cases v with
        | nil =>
          rw [List.nil_append] at hu
          subst hu
          have hmore : 2 ≤ blockLength (language == .kotlin) 0 ('/' :: ([] ++ '*' :: u)) := by
            simp [blockLength]
          simp only [List.length_nil] at hlength
          omega
        | cons y w => exact ⟨w, by rw [(List.cons.inj hu).1]⟩
      simp only [List.cons_append, List.length_cons] at hblock
      cases language with
      | python => exact absurd rfl hlanguage
      | java =>
        simp only [commentTail?, List.cons_append, if_true]
        rw [hblock]
        rfl
      | kotlin =>
        simp only [commentTail?, List.cons_append, if_true]
        rw [hblock]
        rfl

/-! ## Literals

The quotes that close a string are not always the first ones that are found: in a run that is longer
than the delimiter some rules take the first of them and some the last.  Where the run ends in front
of a character that both texts have, both come to the same.
-/

lemma charLiteralTail_congr {v r r' : Text} (h : charLiteralTail (v ++ r) = v.length)
    (hhead : r.head? = r'.head?) : charLiteralTail (v ++ r') = v.length := by
  have hend : charLiteralTail r = 0 → charLiteralTail r' = 0 := by
    intro hzero
    match r with
    | [] =>
      obtain rfl := List.head?_eq_none_iff.1 hhead.symm
      exact hzero
    | x :: r =>
      obtain ⟨u, rfl⟩ : ∃ u, r' = x :: u := List.head?_eq_some_iff.1 hhead.symm
      have hx : x = '\n' := by
        by_contra hx
        cases r with
        | nil => simp [charLiteralTail, hx] at hzero
        | cons d r =>
          simp only [charLiteralTail] at hzero
          split_ifs at hzero <;> omega
      cases u with
      | nil => simp [charLiteralTail, hx]
      | cons d u => simp [charLiteralTail, hx]
  induction hn : v.length using Nat.strongRecOn generalizing v with
  | ind n ih =>
    subst hn
    match v with
    | [] => exact hend h
    | [c] =>
      cases r with
      | nil =>
        obtain rfl := List.head?_eq_none_iff.1 hhead.symm
        exact h
      | cons d r =>
        obtain ⟨u, rfl⟩ : ∃ u, r' = d :: u := List.head?_eq_some_iff.1 hhead.symm
        simp only [List.cons_append, List.nil_append, charLiteralTail, List.length_singleton] at h ⊢
        split_ifs at h ⊢
        · omega
        · rfl
        · rw [hend (by omega)]
    | c :: d :: v =>
      simp only [List.cons_append, charLiteralTail, List.length_cons] at h ⊢
      split_ifs at h ⊢
      · rw [ih v.length (by simp only [List.length_cons]; omega) (by omega) rfl]
        omega
      · omega
      · have hbehind := ih (d :: v).length (by simp) (v := d :: v)
          (by simp only [List.cons_append, List.length_cons]; omega) rfl
        simp only [List.cons_append, List.length_cons] at hbehind
        omega

lemma templateTail_congr {depth : Nat} {v r r' : Text}
    (h : templateTail depth (v ++ r) = v.length) (hhead : r.head? = r'.head?) :
    templateTail depth (v ++ r') = v.length := by
  induction v generalizing depth with
  | nil =>
    cases r with
    | nil =>
      obtain rfl := List.head?_eq_none_iff.1 hhead.symm
      exact h
    | cons x r =>
      obtain ⟨u, rfl⟩ : ∃ u, r' = x :: u := List.head?_eq_some_iff.1 hhead.symm
      simp only [List.nil_append, templateTail, List.length_nil] at h ⊢
      split_ifs at h ⊢ <;> first | rfl | omega
  | cons x v ih =>
    simp only [List.cons_append, templateTail, List.length_cons] at h ⊢
    split_ifs at h ⊢ with hopen hclose hdepth
    · rw [ih (by omega), Nat.add_comm]
    · omega
    · rw [ih (by omega), Nat.add_comm]
    · rw [ih (by omega), Nat.add_comm]

/-- What two texts have in common reaches to the character behind. -/
lemma take_congr {n : Nat} {s r r' : Text} (hn : n ≤ s.length + 1) (hhead : r.head? = r'.head?) :
    (s ++ r).take n = (s ++ r').take n := by
  induction s generalizing n with
  | nil =>
    match n with
    | 0 => rfl
    | 1 => cases r <;> cases r' <;> simp_all
    | n + 2 => simp at hn
  | cons y s ih =>
    cases n with
    | zero => rfl
    | succ n => simp [ih (by simpa using hn)]

lemma prefix_congr {w s r r' : Text} (hlength : w.length ≤ s.length + 1)
    (hhead : r.head? = r'.head?) : w <+: s ++ r ↔ w <+: s ++ r' := by
  rw [List.prefix_iff_eq_take, List.prefix_iff_eq_take, take_congr hlength hhead]

/-- The closing quotes of a rule are all the same, and double if the last of a run close. -/
structure ContentRule.Closes (rule : ContentRule) (q : Char) : Prop where
  delimiter : ∃ more, rule.delimiter = q :: more
  all : ∀ c ∈ rule.delimiter, c = q
  quote : q = '"' ∨ q = '\''
  last : rule.lastQuotes = true → q = '"'

/-- One step through a content. -/
lemma content?_cons (rule : ContentRule) (c : Char) (t : Text) :
    content? rule (c :: t) =
      if c = '\\' ∧ rule.escapes then
        match t with
        | [] => none
        | d :: u => (content? rule u).map (c :: d :: ·)
      else if c = '\n' ∧ !rule.multiline then none
      else if rule.templates ∧ opensWith "$\x7b" (c :: t) then
        (content? rule (t.drop (templateTail 0 t))).map (c :: t.take (templateTail 0 t) ++ ·)
      else
        match after? rule.delimiter (c :: t) with
        | some rest => some (if rule.lastQuotes then rest.takeWhile (· = '"') else [])
        | none => (content? rule t).map (c :: ·) := by
  rw [content?.eq_def]
  cases t <;> rfl

/-- Quotes are neither escapes nor line feeds, and start no template. -/
lemma ContentRule.Closes.content?_quote {rule : ContentRule} {q : Char} (h : rule.Closes q)
    {t rest : Text} (hafter : after? rule.delimiter (q :: t) = some rest) :
    content? rule (q :: t) =
      some (if rule.lastQuotes then rest.takeWhile (· = '"') else []) := by
  have hplain : q ≠ '\\' ∧ q ≠ '\n' ∧ q ≠ '$' := by
    rcases h.quote with rfl | rfl <;> decide
  have htemplate : ¬ (rule.templates = true ∧ opensWith "$\x7b" (q :: t) = true) := by
    rintro ⟨-, hopens⟩
    obtain ⟨more, hmore⟩ := opensWith_iff.1 hopens
    exact hplain.2.2 (List.cons.inj hmore).1.symm
  rw [content?_cons, if_neg (fun h => hplain.1 h.1), if_neg (fun h => hplain.2.1 h.1),
    if_neg htemplate, hafter]

/-- Quotes in front of quotes are quotes behind quotes. -/
lemma append_comm_of_all {q : Char} {s t : Text} (hs : ∀ c ∈ s, c = q) (ht : ∀ c ∈ t, c = q) :
    s ++ t = t ++ s := by
  rw [List.eq_replicate_of_mem hs, List.eq_replicate_of_mem ht, List.replicate_append_replicate,
    List.replicate_append_replicate, Nat.add_comm]

/-- A run of quotes that ends in front of a character ends there in any text. -/
lemma takeWhile_quotes_congr {s r r' : Text} (hs : ∀ c ∈ s, c = '"')
    (h : (s ++ r).takeWhile (· = '"') = s) (hhead : r.head? = r'.head?) :
    (s ++ r').takeWhile (· = '"') = s := by
  have hall : ∀ c ∈ s, decide (c = '"') = true := fun c hc => by simpa using hs c hc
  rw [List.takeWhile_append_of_pos hall] at h ⊢
  have hnone : r.takeWhile (· = '"') = [] := List.append_right_eq_self.1 h
  cases r with
  | nil =>
    obtain rfl := List.head?_eq_none_iff.1 hhead.symm
    exact h
  | cons x r =>
    obtain ⟨u, rfl⟩ : ∃ u, r' = x :: u := List.head?_eq_some_iff.1 hhead.symm
    have hx : ¬ x = '"' := fun hx => by simp [hx] at hnone
    simp [hx]

namespace ContentRule.Closes

variable {rule : ContentRule} {q c : Char} {b body r r' : Text}

lemma head?_append (h : rule.Closes q) (s r r' : Text) :
    (s ++ (rule.delimiter ++ r)).head? = (s ++ (rule.delimiter ++ r')).head? := by
  obtain ⟨more, hmore⟩ := h.delimiter
  rw [hmore]
  cases s <;> rfl

/-- An empty content. -/
lemma content?_nil_congr (hrule : rule.Closes q)
    (h : content? rule (rule.delimiter ++ r) = some []) (hhead : r.head? = r'.head?) :
    content? rule (rule.delimiter ++ r') = some [] := by
  obtain ⟨more, hmore⟩ := hrule.delimiter
  have hafter : ∀ s : Text, after? rule.delimiter (q :: (more ++ s)) = some s := fun s => by
    rw [← List.cons_append, ← hmore]
    exact after?_append _ s
  rw [hmore, List.cons_append, hrule.content?_quote (hafter _)] at h ⊢
  split_ifs at h ⊢
  · have hnone : ([] ++ r).takeWhile (· = '"') = [] := Option.some.inj h
    exact congrArg some (takeWhile_quotes_congr (List.forall_mem_nil _) hnone hhead)
  · rfl

/-- A content that starts with a template, the rest of the content being read the same.  How far a
template goes depends on its own characters and the one behind it, and this is the same in both
texts. -/
lemma content?_template_congr (hrule : rule.Closes q)
    (h : (content? rule ((b ++ (rule.delimiter ++ r)).drop
        (templateTail 0 (b ++ (rule.delimiter ++ r))))).map
      (c :: (b ++ (rule.delimiter ++ r)).take
        (templateTail 0 (b ++ (rule.delimiter ++ r))) ++ ·) = some (c :: b))
    (hinner : ∀ inner : Text, inner.length ≤ b.length →
      content? rule (inner ++ (rule.delimiter ++ r)) = some inner →
      content? rule (inner ++ (rule.delimiter ++ r')) = some inner) :
    (content? rule ((b ++ (rule.delimiter ++ r')).drop
        (templateTail 0 (b ++ (rule.delimiter ++ r'))))).map
      (c :: (b ++ (rule.delimiter ++ r')).take
        (templateTail 0 (b ++ (rule.delimiter ++ r'))) ++ ·) = some (c :: b) := by
  obtain ⟨inner, hread, hsplit⟩ := Option.map_eq_some_iff.1 h
  generalize hm : templateTail 0 (b ++ (rule.delimiter ++ r)) = m at hread hsplit
  obtain ⟨w, hw⟩ : ∃ w, (b ++ (rule.delimiter ++ r)).take m = w := ⟨_, rfl⟩
  obtain rfl : b = w ++ inner := by
    rw [← hw]
    simpa using hsplit.symm
  have hlength : w.length = m := by
    rw [← hw, List.length_take, min_eq_left]
    by_contra hle
    rw [List.drop_eq_nil_of_le (by omega), content?.eq_def] at hread
    cases hread
  have hdrop : ∀ u : Text, (w ++ inner ++ u).drop m = inner ++ u := fun u => by
    rw [← hlength, List.append_assoc, List.drop_left]
  have htake : ∀ u : Text, (w ++ inner ++ u).take m = w := fun u => by
    rw [← hlength, List.append_assoc, List.take_left]
  have htail : templateTail 0 (w ++ inner ++ (rule.delimiter ++ r')) = m := by
    rw [List.append_assoc] at hm ⊢
    rw [← hlength] at hm ⊢
    exact templateTail_congr hm (hrule.head?_append inner r r')
  rw [hdrop] at hread
  rw [htail, hdrop, htake, hinner inner (by rw [List.length_append]; omega) hread]
  simp

/-- A content that starts with closing quotes, being the first of a run of quotes. -/
lemma content?_quotes_congr (hrule : rule.Closes q) {rest : Text}
    (hafter : after? rule.delimiter (c :: (b ++ (rule.delimiter ++ r))) = some rest)
    (h : (if rule.lastQuotes then rest.takeWhile (· = '"') else []) = c :: b)
    (hhead : r.head? = r'.head?) :
    ∃ rest', after? rule.delimiter (c :: (b ++ (rule.delimiter ++ r'))) = some rest' ∧
      (if rule.lastQuotes then rest'.takeWhile (· = '"') else []) = c :: b := by
  split_ifs at h with hquotes
  have hq := hrule.last hquotes
  have hb : ∀ d ∈ c :: b, d = '"' := fun d hd => by
    rw [← h] at hd
    simpa using List.mem_takeWhile_imp hd
  have hcomm : ∀ u : Text, c :: (b ++ (rule.delimiter ++ u)) =
      rule.delimiter ++ (c :: b ++ u) := fun u => by
    rw [← List.append_assoc rule.delimiter, append_comm_of_all (fun d hd => hq ▸ hrule.all d hd) hb]
    simp
  rw [hcomm, after?_append] at hafter
  obtain rfl := Option.some.inj hafter
  refine ⟨_, by rw [hcomm, after?_append], ?_⟩
  rw [if_pos hquotes]
  exact takeWhile_quotes_congr hb h hhead

/-- Where closing quotes do not start they do not start in front of the same character either. -/
lemma after?_congr (hhead : r.head? = r'.head?)
    (h : after? rule.delimiter (c :: (b ++ (rule.delimiter ++ r))) = none) :
    after? rule.delimiter (c :: (b ++ (rule.delimiter ++ r'))) = none := by
  rw [after?_eq_none_iff] at h ⊢
  have hopening : rule.delimiter <+: c :: b ++ rule.delimiter ++ r ↔
      rule.delimiter <+: c :: b ++ rule.delimiter ++ r' :=
    prefix_congr (by simp only [List.length_append, List.length_cons]; omega) hhead
  simp only [List.cons_append, List.append_assoc] at hopening
  exact fun hstarts => h (hopening.2 hstarts)

end ContentRule.Closes

/-- **A content** is read the same in front of the same character.  One character has to be looked
at because quotes in a row may close a raw string with the last three of them. -/
lemma content?_congr {rule : ContentRule} {q : Char} (hrule : rule.Closes q) {body r r' : Text}
    (h : content? rule (body ++ (rule.delimiter ++ r)) = some body) (hhead : r.head? = r'.head?) :
    content? rule (body ++ (rule.delimiter ++ r')) = some body := by
  induction hn : body.length using Nat.strongRecOn generalizing body with
  | ind n ih =>
    subst hn
    cases body with
    | nil => exact hrule.content?_nil_congr h hhead
    | cons c b =>
      have hopens : opensWith "$\x7b" (c :: (b ++ (rule.delimiter ++ r'))) =
          opensWith "$\x7b" (c :: (b ++ (rule.delimiter ++ r))) := by
        have hopening : "$\x7b".toList <+: [c] ++ (b ++ (rule.delimiter ++ r)) ↔
            "$\x7b".toList <+: [c] ++ (b ++ (rule.delimiter ++ r')) :=
          prefix_congr (by simp) (hrule.head?_append b r r')
        rw [Bool.eq_iff_iff, opensWith_iff, opensWith_iff]
        exact hopening.symm
      rw [List.cons_append, content?_cons] at h ⊢
      rw [hopens]
      by_cases hescape : c = '\\' ∧ rule.escapes = true
      · rw [if_pos hescape] at h ⊢
        cases b with
        | nil =>
          obtain ⟨more, hmore⟩ := hrule.delimiter
          rw [List.nil_append, hmore] at h
          obtain ⟨inner, -, hinner⟩ := Option.map_eq_some_iff.1 h
          cases hinner
        | cons d b =>
          obtain ⟨inner, hread, hinner⟩ := Option.map_eq_some_iff.1 h
          obtain rfl : inner = b := by simpa using hinner
          rw [List.cons_append]
          simp only
          rw [ih inner.length (by simp only [List.length_cons]; omega) hread rfl]
          rfl
      rw [if_neg hescape] at h ⊢
      by_cases hline : c = '\n' ∧ (!rule.multiline) = true
      · rw [if_pos hline] at h
        cases h
      rw [if_neg hline] at h ⊢
      by_cases htemplate : rule.templates = true ∧
          opensWith "$\x7b" (c :: (b ++ (rule.delimiter ++ r))) = true
      · rw [if_pos htemplate] at h ⊢
        exact hrule.content?_template_congr h fun inner hle hread =>
          ih inner.length (by simp only [List.length_cons]; omega) hread rfl
      rw [if_neg htemplate] at h ⊢
      cases hafter : after? rule.delimiter (c :: (b ++ (rule.delimiter ++ r))) with
      | some rest =>
        rw [hafter] at h
        obtain ⟨rest', hafter', hrest'⟩ :=
          hrule.content?_quotes_congr hafter (Option.some.inj h) hhead
        rw [hafter']
        exact congrArg some hrest'
      | none =>
        rw [hafter] at h
        rw [ContentRule.Closes.after?_congr hhead hafter]
        obtain ⟨inner, hread, hinner⟩ := Option.map_eq_some_iff.1 h
        obtain rfl : inner = b := by simpa using hinner
        simp only
        rw [ih inner.length (by simp) hread rfl]
        rfl

/-- The quotes that open a string are known from three characters. -/
lemma delimiter?_congr {language : Language} {t t' : Text} (h : t.take 3 = t'.take 3) :
    delimiter? language t = delimiter? language t' := by
  have hopens : ∀ w : Text, w.length ≤ 3 → opensWith w t = opensWith w t' := by
    intro w hw
    have htake : t.take w.length = t'.take w.length := by
      rw [← min_eq_left hw, ← List.take_take, h, List.take_take]
    rw [Bool.eq_iff_iff, opensWith_iff, opensWith_iff, List.prefix_iff_eq_take,
      List.prefix_iff_eq_take, htake]
  simp only [delimiter?, hopens "\"\"\"" (by simp), hopens "'''" (by simp),
    hopens "\"" (by simp), hopens "'" (by simp)]

/-- The letters in front of a string are known from three characters. -/
lemma markerOf_congr {language : Language} {t t' : Text} (h : t.take 3 = t'.take 3)
    (before : Option Char) : markerOf language before t = markerOf language before t' := by
  have htake : t.take 2 = t'.take 2 := by
    rw [show 2 = min 2 3 from rfl, ← List.take_take, h, List.take_take]
  have hhead : ∀ n ≤ 2, (t.drop n).head? = (t'.drop n).head? := fun n hn => by
    have hget := congrArg (·[n]?) h
    simpa [List.getElem?_take, show n < 3 by omega, List.head?_drop] using hget
  have hpython : pythonMarker before t = pythonMarker before t' := by
    unfold pythonMarker
    rw [htake]
    have hletters : ((t'.take 2).takeWhile ("rRbBuUfF".toList.contains ·)).length ≤ 2 :=
      (List.takeWhile_prefix _).length_le.trans (List.length_take_le 2 t')
    have hnext := hhead _ hletters
    generalize (t'.take 2).takeWhile ("rRbBuUfF".toList.contains ·) = letters at hnext ⊢
    simp only
    cases hd : t.drop letters.length <;> cases hd' : t'.drop letters.length <;>
      simp_all
  cases language <;> first | rfl | exact hpython

/-- The rule for the contents of a string closes with its quotes. -/
lemma exists_closes {language : Language} {t delimiter : Text}
    (h : delimiter? language t = some delimiter) :
    ∃ q, (ContentRule.of language delimiter).Closes q := by
  obtain ⟨-, hquotes⟩ := delimiter?_cases h
  simp only [List.mem_cons, List.not_mem_nil, or_false] at hquotes
  rcases hquotes with (rfl | rfl) | ⟨rfl, rfl | rfl⟩
  · exact ⟨'"', ⟨⟨_, rfl⟩, by simp [ContentRule.of], .inl rfl, fun _ => rfl⟩⟩
  · exact ⟨'"', ⟨⟨_, rfl⟩, by simp [ContentRule.of], .inl rfl, fun _ => rfl⟩⟩
  · exact ⟨'\'', ⟨⟨_, rfl⟩, by simp [ContentRule.of], .inr rfl, by simp [ContentRule.of]⟩⟩
  · exact ⟨'\'', ⟨⟨_, rfl⟩, by simp [ContentRule.of], .inr rfl, by simp [ContentRule.of]⟩⟩

/-- How a string is read where it stands. -/
lemma quoted?_source_iff {language : Language} {before : Option Char} {q : Quoted} {r : Text} :
    quoted? language before (q.source ++ r) = some (some q) ↔
      markerOf language before (q.source ++ r) = q.marker ∧
        delimiter? language (q.delimiter ++ (q.content ++ (q.delimiter ++ r))) =
          some q.delimiter ∧
        content? (.of language q.delimiter) (q.content ++ (q.delimiter ++ r)) =
          some q.content := by
  obtain ⟨marker, delimiter, content⟩ := q
  have hsource : (⟨marker, delimiter, content⟩ : Quoted).source ++ r =
      marker ++ (delimiter ++ (content ++ (delimiter ++ r))) := by
    simp [Quoted.source]
  rw [hsource]
  constructor
  · intro h
    obtain ⟨opening, hopening, hq⟩ := Option.map_eq_some_iff.1 h
    obtain ⟨body, hbody, heq⟩ := Option.map_eq_some_iff.1 hq
    obtain ⟨hmarker, rfl, rfl⟩ := Quoted.mk.inj heq
    rw [hmarker, List.drop_left] at hopening hbody
    rw [List.drop_left] at hbody
    exact ⟨hmarker, hopening, hbody⟩
  · rintro ⟨hmarker, hopening, hbody⟩
    rw [quoted?, hmarker]
    simp only [List.drop_left, hopening, Option.map_some, hbody]

/-- **A string** is read the same in front of the same character, letters and quotes included.  An
empty string shows why it cannot be any other: a quote behind it would make it the start of a text
block. -/
lemma quoted?_congr {language : Language} {before : Option Char} {q : Quoted} {r r' : Text}
    (h : quoted? language before (q.source ++ r) = some (some q)) (hhead : r.head? = r'.head?) :
    quoted? language before (q.source ++ r') = some (some q) := by
  rw [quoted?_source_iff] at h ⊢
  obtain ⟨hmarker, hdelimiter, hcontent⟩ := h
  obtain ⟨quote, hcloses⟩ := exists_closes hdelimiter
  obtain ⟨more, hmore⟩ := hcloses.delimiter
  have hmore : q.delimiter = quote :: more := hmore
  have hinner : (q.delimiter ++ (q.content ++ (q.delimiter ++ r))).take 3 =
      (q.delimiter ++ (q.content ++ (q.delimiter ++ r'))).take 3 := by
    have htake : (q.delimiter ++ q.content ++ q.delimiter ++ r).take 3 =
        (q.delimiter ++ q.content ++ q.delimiter ++ r').take 3 :=
      take_congr (by rw [hmore]; simp; omega) hhead
    simpa using htake
  have houter : (q.source ++ r).take 3 = (q.source ++ r').take 3 :=
    take_congr (by rw [Quoted.source, hmore]; simp; omega) hhead
  exact ⟨markerOf_congr houter before ▸ hmarker, delimiter?_congr hinner ▸ hdelimiter,
    content?_congr hcloses hcontent hhead⟩

/-! ## What is passed at once -/

/-- Outside Python no string starts at an apostrophe. -/
lemma quoted?_apostrophe {language : Language} (hlanguage : language ≠ .python)
    (before : Option Char) (t : Text) : quoted? language before ('\'' :: t) = none := by
  have hmarker : markerOf language before ('\'' :: t) = [] := by
    cases language <;> first | rfl | exact absurd rfl hlanguage
  have hdelimiter : delimiter? language ('\'' :: t) = none := by
    rw [Option.eq_none_iff_forall_ne_some]
    intro delimiter h
    obtain ⟨⟨rest, hrest⟩, hquotes | hpython⟩ := delimiter?_cases h
    · simp only [List.mem_cons, List.not_mem_nil, or_false] at hquotes
      rcases hquotes with rfl | rfl <;> exact absurd (List.cons.inj hrest).1 (by decide)
    · exact hlanguage hpython.1
  simp only [quoted?, hmarker, List.length_nil, List.drop_zero, hdelimiter, Option.map_none]

lemma commentTail?_none_congr {language : Language} {x : Char} {t t' : Text}
    (h : commentTail? language x t = none) (hhead : t.head? = t'.head?) :
    commentTail? language x t' = none := by
  cases t with
  | nil =>
    obtain rfl := List.head?_eq_none_iff.1 hhead.symm
    exact h
  | cons y t =>
    obtain ⟨u, rfl⟩ : ∃ u, t' = y :: u := List.head?_eq_some_iff.1 hhead.symm
    unfold commentTail? at h ⊢
    split at h <;> split at h <;> simp_all
    all_goals split at h <;> simp_all

/-- **What a scan passes at once** it passes in front of the same character in any text, unless it
is a string that never closes but might in the other text. -/
lemma sealedTail?_congr {language : Language} {before : Option Char} {x : Char} {v r r' : Text}
    (h : sealedTail? language before x (v ++ r) = some v.length) (hhead : r.head? = r'.head?)
    (hopen : quoted? language before (x :: (v ++ r)) = some none →
      quoted? language before (x :: (v ++ r')) = some none) :
    sealedTail? language before x (v ++ r') = some v.length := by
  have hheads : (v ++ r).head? = (v ++ r').head? := by cases v <;> first | exact hhead | rfl
  cases hcomment : commentTail? language x (v ++ r) with
  | some k =>
    have hk : k = v.length := by simpa [sealedTail?, hcomment] using h
    rw [hk] at hcomment
    simp [sealedTail?, commentTail?_congr hcomment hhead]
  | none =>
    have hliteral : literalTail? language before x (v ++ r) = some v.length := by
      simpa [sealedTail?, hcomment] using h
    have hliteral' : literalTail? language before x (v ++ r') = some v.length := by
      unfold literalTail? at hliteral ⊢
      split at hliteral
      · rename_i q hq
        obtain ⟨rest, hrest⟩ := prefix_of_quoted? hq
        have hpos := length_source_pos hq
        have hsource : q.source = x :: v := by
          have htake := congrArg (List.take q.source.length) hrest
          rw [List.take_left, ← List.cons_append, List.take_append_of_le_length] at htake
          · rw [htake, List.take_of_length_le]
            simp only [List.length_cons]
            have := Option.some.inj hliteral
            omega
          · have := Option.some.inj hliteral
            simp only [List.length_cons]
            omega
        rw [← List.cons_append, ← hsource] at hq ⊢
        rw [quoted?_congr hq hhead]
        exact hliteral
      · rename_i hq
        rw [hopen hq]
        exact congrArg some (lineLength_congr (Option.some.inj hliteral) hhead)
      · split at hliteral
        · rename_i happos
          obtain ⟨hlanguage, rfl⟩ := happos
          rw [quoted?_apostrophe hlanguage]
          simp only [hlanguage, ne_eq, not_false_eq_true, and_self, if_true]
          exact congrArg some (charLiteralTail_congr (Option.some.inj hliteral) hhead)
        · cases hliteral
    simp [sealedTail?, commentTail?_none_congr hcomment hheads, hliteral']

/-! ## White space and comments -/

lemma trivia_of_zero {language : Language} {t : Text} (h : (trivia language t).1 = 0) :
    trivia language t = (0, false) := by
  unfold trivia at h ⊢
  split at h
  · rfl
  · split_ifs at h ⊢
    · split at h <;> simp_all
    · split at h <;> simp_all

/-- A line break that is passed is known from its characters. -/
lemma exists_of_lineBreakLength? {t : Text} {k : Nat} (h : lineBreakLength? t = some k) :
    ∃ eol u, t = eol ++ u ∧ eol.length = k ∧ (eol = ['\n'] ∨ eol = ['\r', '\n']) := by
  unfold lineBreakLength? at h
  split at h
  · exact ⟨['\n'], _, rfl, Option.some.inj h, .inl rfl⟩
  · exact ⟨['\r', '\n'], _, rfl, Option.some.inj h, .inr rfl⟩
  · cases h

/-- **White space and comments** are the same in front of the same character, if nothing of the kind
starts there. -/
lemma trivia_congr {language : Language} {v r r' : Text}
    (h : (trivia language (v ++ r)).1 = v.length) (hhead : r.head? = r'.head?)
    (hstop : (trivia language r').1 = 0) :
    trivia language (v ++ r') = trivia language (v ++ r) := by
  induction hn : v.length using Nat.strongRecOn generalizing v with
  | ind n ih =>
    subst hn
    cases v with
    | nil =>
      have hnone : (trivia language r).1 = 0 := h
      change trivia language r' = trivia language r
      rw [trivia_of_zero hnone, trivia_of_zero hstop]
    | cons x v =>
      rw [List.cons_append, List.cons_append, trivia.eq_def language (x :: (v ++ r')),
        trivia.eq_def language (x :: (v ++ r))]
      rw [List.cons_append, trivia.eq_def] at h
      simp only [List.length_cons] at h ⊢
      split_ifs at h ⊢ with hblank hcontinued
      · rw [ih v.length (by simp) (by simpa using h) rfl]
      · split at h
        · cases h
        · rename_i k hbreak
          obtain ⟨eol, u, hu, hlength, heol⟩ := exists_of_lineBreakLength? hbreak
          obtain ⟨w, rfl⟩ : eol <+: v :=
            List.prefix_of_prefix_length_le ⟨u, hu.symm⟩ ⟨r, rfl⟩ (by omega)
          have hbreak' : ∀ s : Text, lineBreakLength? (eol ++ w ++ s) = some k := fun s => by
            rw [← hlength]
            rcases heol with rfl | rfl <;> rfl
          have hdrop : ∀ s : Text, (eol ++ w ++ s).drop k = w ++ s := fun s => by
            rw [← hlength, List.append_assoc, List.drop_left]
          rw [hdrop] at h
          simp only [hbreak', hdrop]
          simp only [List.length_append] at h
          rw [ih w.length (by simp only [List.length_cons, List.length_append]; omega)
            (by omega) rfl]
      · split at h
        · cases h
        · rename_i k hcomment
          have hk : (v.take k).length = k := List.length_take_of_le (by omega)
          have hsplit : ∀ s : Text, v ++ s = v.take k ++ (v.drop k ++ s) := fun s => by
            rw [← List.append_assoc, List.take_append_drop]
          have hdrop : ∀ s : Text, (v ++ s).drop k = v.drop k ++ s := fun s =>
            List.drop_append_of_le_length (by omega)
          have hheads : (v.drop k ++ r).head? = (v.drop k ++ r').head? := by
            cases v.drop k <;> first | exact hhead | rfl
          have hcomment' : commentTail? language x (v ++ r') = some k := by
            rw [hsplit] at hcomment ⊢
            rw [commentTail?_congr (by rw [hcomment, hk]) hheads, hk]
          simp only [hcomment, hcomment', hdrop] at h ⊢
          rw [ih (v.drop k).length (by simp only [List.length_cons, List.length_drop]; omega)
            (by rw [List.length_drop]; omega) rfl]

end SqlInlay.Host
