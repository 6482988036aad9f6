import SqlInlay.Proofs.Host.Swaps

/-!
# Sources read abreast

Two sources that differ in some literals only are read abreast: a scan goes over both in the same
strides, but for the literals, which it passes as a whole.  Such sources are given by their `Part`s,
each of which is a stride that is the same in both or an expression in place of another one, and
`Sound` says that the parts are read as what they are.

**Two sides.**  Everything is stated from one source to the other.  Exchanging the sides of all
parts (`Part.flip`) keeps them sound, so each lemma has its converse for nothing.

**Places.**  `Abreast` says of two cursors that they stand in front of the same parts.

* `Goes` — from two places the scans go on over the same parts.  Where they come to, they are
  abreast again (`Goes.abreast`), and places in the one source are in the same order as those in the
  other (`Goes.offset_lt`).
* `Abreast.exists_sealed` — a comment or a literal is passed in both at once.
* `Abreast.skipTrivia` — white space and comments are passed in both.

**Letters.**  A string may have letters in front that belong to it, and those are parts of their own
if the string is one.  So before anything can be said of a string, its letters have to be found
among the parts (`Abreast.exists_behind_marker`); `OpenSame` and the first argument of `Sound` are
there to say that an expression never stands where letters could run into it.
-/

namespace SqlInlay.Host

open SqlInlay.Text

/-! ## Parts

A part that is swapped is an expression on both sides, with nothing in common but that both start
with the same character.  It has to be followed by the end of an argument, for otherwise what is
behind it could be joined to it.
-/

/-- A part of two sources that are read abreast.  A scan passes a stride in one step, and an
expression string by string. -/
inductive Part where
  /-- A stride that is the same in both. -/
  | same (x : Char) (v : Text)
  /-- An expression in place of another one. -/
  | swapped (e e' : Text)

namespace Part

/-- What the one source has. -/
def left : Part → Text
  | same x v => x :: v
  | swapped e _ => e

/-- What the other source has. -/
def right : Part → Text
  | same x v => x :: v
  | swapped _ e' => e'

/-- The part with its sides exchanged. -/
def flip : Part → Part
  | same x v => same x v
  | swapped e e' => swapped e' e

@[simp] lemma left_flip (p : Part) : p.flip.left = p.right := by cases p <;> rfl

@[simp] lemma right_flip (p : Part) : p.flip.right = p.left := by cases p <;> rfl

end Part

/-- The one source. -/
def lefts (ps : List Part) : Text := ps.flatMap Part.left

/-- The other source. -/
def rights (ps : List Part) : Text := ps.flatMap Part.right

section

variable (p : Part) (ps ps' : List Part)

@[simp] lemma lefts_nil : lefts [] = [] := rfl

@[simp] lemma rights_nil : rights [] = [] := rfl

@[simp] lemma lefts_cons : lefts (p :: ps) = p.left ++ lefts ps := List.flatMap_cons

@[simp] lemma rights_cons : rights (p :: ps) = p.right ++ rights ps := List.flatMap_cons

@[simp] lemma lefts_append : lefts (ps ++ ps') = lefts ps ++ lefts ps' := List.flatMap_append

@[simp] lemma rights_append : rights (ps ++ ps') = rights ps ++ rights ps' := List.flatMap_append

@[simp] lemma lefts_map_flip : lefts (ps.map Part.flip) = rights ps := by
  simp [lefts, rights, List.flatMap_map]

@[simp] lemma rights_map_flip : rights (ps.map Part.flip) = lefts ps := by
  simp [lefts, rights, List.flatMap_map]

end

/-- The scan takes the same stride in front of both texts.  Beside its length it is asked for what a
reader of arguments looks at: whether it is a comment, and whether it is a string. -/
structure SameStride (language : Language) (x : Char) (v t t' : Text) : Prop where
  comment : commentTail? language x (v ++ t) = commentTail? language x (v ++ t')
  quoted : quoted? language (some '_') (x :: (v ++ t)) = quoted? language (some '_') (x :: (v ++ t'))
  sealed : sealedTail? language (some '_') x (v ++ t) = sealedTail? language (some '_') x (v ++ t')
  length : strideTail language x (v ++ t) = v.length

lemma SameStride.symm {language : Language} {x : Char} {v t t' : Text}
    (h : SameStride language x v t t') : SameStride language x v t' t :=
  ⟨h.comment.symm, h.quoted.symm, h.sealed.symm, by
    rw [strideTail, ← h.sealed]
    exact h.length⟩

/-- An argument ends behind the white space and the comments of a text. -/
def EndsText (language : Language) (t : Text) : Prop :=
  ∃ x u, t.drop (trivia language t).1 = x :: u ∧ (x = ',' ∨ x = ')')

/-- What holds of the last character of a text, or of the one in front of it. -/
def lastly (p : Char → Bool) (before : Bool) (s : Text) : Bool := (s.getLast?.map p).getD before

@[simp] lemma lastly_nil (p : Char → Bool) (before : Bool) : lastly p before [] = before := rfl

lemma lastly_append (p : Char → Bool) (before : Bool) (s t : Text) :
    lastly p before (s ++ t) = lastly p (lastly p before s) t := by
  rcases List.eq_nil_or_concat t with rfl | ⟨t, y, rfl⟩
  · simp
  · simp [lastly, ← List.append_assoc]

/-- An expression ends in a quote. -/
lemma Expression.lastly {language : Language} {rest e : Text} {qs : List Quoted}
    (h : Expression language rest e qs) {p : Char → Bool} (hp : p '"' = false ∧ p '\'' = false)
    (before : Bool) : lastly p before e = false := by
  obtain ⟨s, y, rfl⟩ := List.eq_nil_or_concat e |>.resolve_left h.ne_nil
  rcases h.getLast? y (by simp) with rfl | rfl
  · simp [Host.lastly, hp.1]
  · simp [Host.lastly, hp.2]

/-- An expression starts with a quote, or a letter in front of one. -/
lemma Expression.mem_of_mem_head? {language : Language} {rest e : Text} {qs : List Quoted}
    (h : Expression language rest e qs) {x : Char} (hx : x ∈ e.head?) :
    x ∈ "rRbBuUfF\"'".toList := by
  obtain ⟨q, t, heq, hq, -⟩ := h.exists_legible
  obtain ⟨u, rfl⟩ := List.head?_eq_some_iff.1 hx
  have hread := hq.quoted none rfl
  rw [← heq, List.cons_append] at hread
  by_contra hmem
  rw [quoted?_eq_none hmem] at hread
  cases hread

/-- An expression is passed in strides. -/
lemma Expression.strides {language : Language} {rest e : Text} {qs : List Quoted}
    (h : Expression language rest e qs) : Strides language (e ++ rest) rest := by
  have hstring : ∀ {q : Quoted} {t : Text}, Legible language q t →
      Strides language (q.source ++ t) t := by
    intro q t hq
    have hstrides := strides_string (hq.quoted none rfl)
    rwa [List.drop_left] at hstrides
  induction h with
  | last hq => exact hstring hq
  | @cons q s e qs hq hs h ih =>
    rw [List.append_assoc, List.append_assoc]
    refine (hstring hq).trans (.trans (strides_append (fun x hx => ?_) _) ih)
    exact List.notMem_of_subset (by decide) (not_mem_of_isIdle (hs.isIdle x hx))

/-- The parts are read as what they are.  `leads` says that a name may go on in front of them; if so
they do not start with an expression, for its letters would be taken for a name. -/
inductive Sound (language : Language) : Bool → List Part → Prop
  | nil (leads : Bool) : Sound language leads []
  | same {leads : Bool} {x : Char} {v : Text} {ps : List Part}
      (h : SameStride language x v (lefts ps) (rights ps))
      (hps : Sound language (lastly leadsOn leads (x :: v)) ps) :
      Sound language leads (.same x v :: ps)
  | swapped {e e' : Text} {ps : List Part} {qs qs' : List Quoted}
      (he : Expression language (lefts ps) e qs) (he' : Expression language (rights ps) e' qs')
      (hhead : e.head? = e'.head?) (hend : EndsText language (lefts ps))
      (hend' : EndsText language (rights ps)) (hps : Sound language false ps) :
      Sound language false (.swapped e e' :: ps)

namespace Sound

variable {language : Language} {leads : Bool} {ps : List Part}

/-- Sound parts are sound with their sides exchanged. -/
lemma flip (h : Sound language leads ps) : Sound language leads (ps.map Part.flip) := by
  induction h with
  | nil => exact .nil _
  | @same leads x v ps h hps ih =>
    exact .same (by rw [lefts_map_flip, rights_map_flip]; exact h.symm) ih
  | @swapped e e' ps qs qs' he he' hhead hend hend' hps ih =>
    have he' : Expression language (lefts (ps.map Part.flip)) e' qs' := by simpa using he'
    have he : Expression language (rights (ps.map Part.flip)) e qs := by simpa using he
    exact .swapped he' he hhead.symm (by simpa using hend') (by simpa using hend) ih

/-- Both sources start with the same character. -/
lemma head? (h : Sound language leads ps) : (lefts ps).head? = (rights ps).head? := by
  cases h with
  | nil => rfl
  | same h hps => simp [Part.left, Part.right]
  | swapped he he' hhead hend hend' hps =>
    simp only [lefts_cons, rights_cons, Part.left, Part.right]
    obtain ⟨x, e, rfl⟩ := List.exists_cons_of_ne_nil he.ne_nil
    obtain ⟨y, e', rfl⟩ := List.exists_cons_of_ne_nil he'.ne_nil
    exact hhead

/-- What stands behind some of the parts is sound. -/
lemma behind {js : List Part} (h : Sound language leads (js ++ ps)) :
    Sound language (lastly leadsOn leads (lefts js)) ps := by
  induction js generalizing leads with
  | nil => exact h
  | cons j js ih =>
    rw [lefts_cons, lastly_append]
    cases h with
    | same _ hps => exact ih hps
    | swapped he _ _ _ _ hps =>
      rw [Part.left, he.lastly ⟨by decide +kernel, by decide +kernel⟩]
      exact ih hps

/-- Both sources end in the same character, or in quotes. -/
lemma lastly {js : List Part} (h : Sound language leads (js ++ ps)) {p : Char → Bool}
    (hp : p '"' = false ∧ p '\'' = false) (before : Bool) :
    lastly p before (rights js) = lastly p before (lefts js) := by
  induction js generalizing leads before with
  | nil => rfl
  | cons j js ih =>
    rw [lefts_cons, rights_cons, lastly_append, lastly_append]
    cases h with
    | same _ hps => exact ih hps _
    | swapped he he' _ _ _ hps =>
      simp only [Part.left, Part.right, he.lastly hp, he'.lastly hp]
      exact ih hps _

/-- The strides of the one source go from part to part. -/
lemma strides {js : List Part} (h : Sound language leads (js ++ ps)) :
    Strides language (lefts (js ++ ps)) (lefts ps) := by
  induction js generalizing leads with
  | nil => exact .refl _
  | cons j js ih =>
    rw [List.cons_append, lefts_cons]
    cases h with
    | @same _ x v _ hstride hps =>
      refine .step ?_
      have hlength : strideTail language x (v ++ lefts (js ++ ps)) = v.length := hstride.length
      change Strides language ((v ++ lefts (js ++ ps)).drop
        (strideTail language x (v ++ lefts (js ++ ps)))) (lefts ps)
      rw [hlength, List.drop_left]
      exact ih hps
    | swapped he _ _ _ _ hps => exact he.strides.trans (ih hps)

end Sound

/-! ## Places -/

namespace Cursor

/-- The character in front of a place further on. -/
lemma any_before_advance {c : Cursor} {s t : Text} (h : c.rest = s ++ t) (p : Char → Bool) :
    (c.advance s.length).before.any p = lastly p (c.before.any p) s := by
  have htake : c.rest.take s.length = s := by rw [h]; exact List.take_left
  rw [before, advance, htake]
  rcases List.eq_nil_or_concat s with rfl | ⟨s, y, rfl⟩
  · rfl
  · simp [lastly]

end Cursor

/-- The two places are in front of the same parts, and behind similar characters.  What is behind
them may be the end of an expression in one source and of another in the other, so no more is asked
there than whether a name or a word goes on. -/
structure Abreast (language : Language) (ps : List Part) (c c' : Cursor) : Prop where
  sound : Sound language (c.before.any leadsOn) ps
  left : c.rest = lefts ps
  right : c'.rest = rights ps
  leads : c'.before.any leadsOn = c.before.any leadsOn
  word : c'.before.any isHostWordChar = c.before.any isHostWordChar

namespace Abreast

variable {language : Language} {ps js : List Part} {c c' : Cursor}

lemma flip (h : Abreast language ps c c') : Abreast language (ps.map Part.flip) c' c where
  sound := h.leads ▸ h.sound.flip
  left := by rw [h.right, lefts_map_flip]
  right := by rw [h.left, rights_map_flip]
  leads := h.leads.symm
  word := h.word.symm

end Abreast

/-- From two places in front of `ps` the scans go on over the same parts. -/
def Goes (ps : List Part) (c c' : Cursor) (ps' : List Part) (d d' : Cursor) : Prop :=
  ∃ js, ps = js ++ ps' ∧ d = c.advance (lefts js).length ∧ d' = c'.advance (rights js).length

namespace Goes

variable {language : Language} {ps ps₁ ps₂ : List Part} {c c' d d' e e' : Cursor}

lemma refl (ps : List Part) (c c' : Cursor) : Goes ps c c' ps c c' :=
  ⟨[], rfl, by simp [Cursor.advance], by simp [Cursor.advance]⟩

lemma trans (h : Goes ps c c' ps₁ d d') (h' : Goes ps₁ d d' ps₂ e e') : Goes ps c c' ps₂ e e' := by
  obtain ⟨js, rfl, rfl, rfl⟩ := h
  obtain ⟨ks, rfl, rfl, rfl⟩ := h'
  exact ⟨js ++ ks, by simp, by simp [Cursor.advance_advance], by simp [Cursor.advance_advance]⟩

lemma flip (h : Goes ps c c' ps₁ d d') :
    Goes (ps.map Part.flip) c' c (ps₁.map Part.flip) d' d := by
  obtain ⟨js, rfl, rfl, rfl⟩ := h
  exact ⟨js.map Part.flip, by simp, by simp, by simp⟩

/-- Where both scans come to, they are abreast again. -/
lemma abreast (hd : Goes ps c c' ps₁ d d') (h : Abreast language ps c c') :
    Abreast language ps₁ d d' := by
  obtain ⟨js, rfl, rfl, rfl⟩ := hd
  have hleft : c.rest = lefts js ++ lefts ps₁ := by rw [h.left, lefts_append]
  have hright : c'.rest = rights js ++ rights ps₁ := by rw [h.right, rights_append]
  refine ⟨?_, (Cursor.advance_append hleft).1, (Cursor.advance_append hright).1, ?_, ?_⟩
  · rw [Cursor.any_before_advance hleft]
    exact h.sound.behind
  · rw [Cursor.any_before_advance hleft, Cursor.any_before_advance hright, h.leads,
      h.sound.lastly ⟨by decide +kernel, by decide +kernel⟩]
  · rw [Cursor.any_before_advance hleft, Cursor.any_before_advance hright, h.word,
      h.sound.lastly ⟨by decide +kernel, by decide +kernel⟩]

lemma meets (hd : Goes ps c c' ps₁ d d') (h : Abreast language ps c c') :
    c.Meets language d := by
  obtain ⟨js, rfl, rfl, rfl⟩ := hd
  have hdrop : (lefts (js ++ ps₁)).drop (lefts js).length = lefts ps₁ := by
    rw [lefts_append, List.drop_left]
  refine Cursor.meets_advance ?_
  rw [h.left, hdrop]
  exact h.sound.strides

/-- Fewer parts are left further on. -/
lemma length_lt (hd : Goes ps c c' ps₁ d d') (hlt : d.rest.length < c.rest.length) :
    ps₁.length < ps.length := by
  obtain ⟨js, rfl, rfl, -⟩ := hd
  cases js with
  | nil => simp [Cursor.advance] at hlt
  | cons j js =>
    simp only [List.cons_append, List.length_cons, List.length_append]
    omega

/-- Of two places that both scans come to, one is further on. -/
lemma total (hd : Goes ps c c' ps₁ d d') (he : Goes ps c c' ps₂ e e') :
    Goes ps₁ d d' ps₂ e e' ∨ Goes ps₂ e e' ps₁ d d' := by
  obtain ⟨js, rfl, rfl, rfl⟩ := hd
  obtain ⟨ks, hks, rfl, rfl⟩ := he
  rcases List.append_eq_append_iff.1 hks with ⟨ms, rfl, rfl⟩ | ⟨ms, rfl, rfl⟩
  · exact .inl ⟨ms, rfl, by simp [Cursor.advance_advance], by simp [Cursor.advance_advance]⟩
  · exact .inr ⟨ms, rfl, by simp [Cursor.advance_advance], by simp [Cursor.advance_advance]⟩

/-- Both scans stay where they are, or both go on. -/
lemma eq_or_lt (hd : Goes ps c c' ps₁ d d') (h : Abreast language ps c c') :
    (ps₁ = ps ∧ d = c ∧ d' = c') ∨ (c.offset < d.offset ∧ c'.offset < d'.offset) := by
  obtain ⟨js, rfl, rfl, rfl⟩ := hd
  cases js with
  | nil => exact .inl ⟨rfl, by simp [Cursor.advance], by simp [Cursor.advance]⟩
  | cons j js =>
    refine .inr ?_
    have hne : j.left ≠ [] ∧ j.right ≠ [] := by
      have hsound := h.sound
      generalize c.before.any leadsOn = leads at hsound
      cases hsound with
      | same => exact ⟨List.cons_ne_nil _ _, List.cons_ne_nil _ _⟩
      | swapped he he' => exact ⟨he.ne_nil, he'.ne_nil⟩
    have hleft : c.rest = lefts (j :: js) ++ lefts ps₁ := by rw [h.left, lefts_append]
    have hright : c'.rest = rights (j :: js) ++ rights ps₁ := by rw [h.right, rights_append]
    rw [(Cursor.advance_append hleft).2, (Cursor.advance_append hright).2]
    simp only [lefts_cons, rights_cons, bytes_append]
    have hpos := bytes_pos hne.1
    have hpos' := bytes_pos hne.2
    omega

/-- Of two places the same one is further on in both sources. -/
lemma offset_lt (hd : Goes ps c c' ps₁ d d') (he : Goes ps c c' ps₂ e e')
    (h : Abreast language ps c c') (hlt : d.offset < e.offset) :
    d'.offset < e'.offset ∧ Goes ps₁ d d' ps₂ e e' := by
  rcases hd.total he with hde | hed
  · rcases hde.eq_or_lt (hd.abreast h) with ⟨-, rfl, -⟩ | ⟨-, hlt'⟩
    · omega
    · exact ⟨hlt', hde⟩
  · have hle := (hed.meets (he.abreast h)).1.offset_le
    omega

/-- Where the one scan is determines where the other one is. -/
lemma unique (hd : Goes ps c c' ps₁ d d') (he : Goes ps c c' ps₂ e e')
    (h : Abreast language ps c c') (heq : d = e) : ps₁ = ps₂ ∧ d' = e' := by
  rcases hd.total he with hde | hed
  · rcases hde.eq_or_lt (hd.abreast h) with ⟨hps, -, hright⟩ | ⟨hlt, -⟩
    · exact ⟨hps.symm, hright.symm⟩
    · exact absurd hlt (by simp [heq])
  · rcases hed.eq_or_lt (he.abreast h) with ⟨hps, -, hright⟩ | ⟨hlt, -⟩
    · exact ⟨hps, hright⟩
    · exact absurd hlt (by simp [heq])

end Goes

/-! ### Comments and literals

What a scan passes in one stride it recognizes by a few characters, but how far the stride goes may
depend on all that follows.  `SameStride` says of each part that this comes out the same; here it is
brought to the places of both scans, which may be in the middle of a string's letters.
-/

/-- A character that is passed by itself and behind which a name may go on. -/
def IsLetter (x : Char) : Prop := x ∉ "\"'#/".toList ∧ leadsOn x = true

lemma isLetter_of_mem {x : Char} (h : x ∈ "rRbBuUfF".toList) : IsLetter x := by
  have hall : "rRbBuUfF".toList.all (fun c => !"\"'#/".toList.contains c && leadsOn c) = true := by
    decide +kernel
  simpa [IsLetter] using List.all_eq_true.1 hall x h

/-- The parts do not start with an expression.  Then what stands first, a stride, is the same in
both. -/
def OpenSame (ps : List Part) : Prop := ∀ e e' ps', ps ≠ .swapped e e' :: ps'

namespace Sound

variable {language : Language} {ps : List Part}

/-- What stands behind a stride that is the same in both. -/
lemma of_same {leads : Bool} {x : Char} {v : Text} (h : Sound language leads (.same x v :: ps)) :
    SameStride language x v (lefts ps) (rights ps) ∧
      Sound language (Host.lastly leadsOn leads (x :: v)) ps := by
  cases h with
  | same hstride hps => exact ⟨hstride, hps⟩

/-- Where a plain character stands, it is a stride. -/
lemma of_plain {leads : Bool} {x : Char} {v : Text} (h : Sound language leads (.same x v :: ps))
    (hx : x ∉ "\"'#/".toList) : v = [] ∧ Sound language (leadsOn x) ps := by
  obtain ⟨hstride, hps⟩ := h.of_same
  obtain rfl : v = [] := by
    rw [← List.length_eq_zero_iff, ← hstride.length, strideTail_eq_zero hx]
  exact ⟨rfl, hps⟩

/-- No expression stands where a name may go on. -/
lemma openSame (h : Sound language true ps) : OpenSame ps := by
  rintro e e' ps' rfl
  cases h

/-- Letters are parts of their own. -/
lemma exists_behind_letters {leads : Bool} {m u : Text} (h : Sound language leads ps)
    (hopen : OpenSame ps) (hm : ∀ x ∈ m, IsLetter x) (hps : lefts ps = m ++ u) :
    ∃ js ps', ps = js ++ ps' ∧ lefts js = m ∧ rights js = m ∧ OpenSame ps' := by
  induction m generalizing leads ps with
  | nil => exact ⟨[], ps, rfl, rfl, rfl, hopen⟩
  | cons y m ih =>
    rw [List.forall_mem_cons] at hm
    cases h with
    | nil => cases hps
    | swapped => exact absurd rfl (hopen _ _ _)
    | @same _ x v ps hstride hbehind =>
      obtain ⟨rfl, htail⟩ := List.cons.inj hps
      obtain ⟨rfl, hsound⟩ := (Sound.same hstride hbehind).of_plain hm.1.1
      rw [hm.1.2] at hsound
      obtain ⟨js, ps', rfl, hl, hr, hopen'⟩ := ih hsound hsound.openSame hm.2 htail
      exact ⟨.same x [] :: js, ps', rfl, by simp [Part.left, hl], by simp [Part.right, hr], hopen'⟩

/-- Characters that start no string are parts of their own. -/
lemma exists_behind_signs {leads : Bool} {m u : Text} (h : Sound language leads ps)
    (hm : ∀ x ∈ m, x ∉ "rRbBuUfF\"'#/".toList) (hps : lefts ps = m ++ u) :
    ∃ js ps', ps = js ++ ps' ∧ lefts js = m ∧ rights js = m := by
  induction m generalizing leads ps with
  | nil => exact ⟨[], ps, rfl, rfl, rfl⟩
  | cons y m ih =>
    rw [List.forall_mem_cons] at hm
    cases h with
    | nil => cases hps
    | @swapped e _ ps _ _ he =>
      have hhead : y ∈ e.head? := by
        obtain ⟨x, e, rfl⟩ := List.exists_cons_of_ne_nil he.ne_nil
        exact congrArg some (List.cons.inj hps).1
      exact absurd (he.mem_of_mem_head? hhead) (List.notMem_of_subset (by decide) hm.1)
    | @same _ x v ps hstride hbehind =>
      obtain ⟨rfl, htail⟩ := List.cons.inj hps
      obtain ⟨rfl, hsound⟩ := (Sound.same hstride hbehind).of_plain
        (List.notMem_of_subset (by decide) hm.1)
      obtain ⟨js, ps', rfl, hl, hr⟩ := ih hsound hm.2 htail
      exact ⟨.same x [] :: js, ps', rfl, by simp [Part.left, hl], by simp [Part.right, hr]⟩

/-- White space and comments are parts of their own, and the same in both sources. -/
lemma exists_behind_trivia {leads : Bool} (h : Sound language leads ps) :
    ∃ js ps', ps = js ++ ps' ∧ rights js = lefts js ∧
      (trivia language (lefts ps)).1 = (lefts js).length := by
  induction h with
  | nil => exact ⟨[], [], rfl, rfl, by simp [trivia]⟩
  | @swapped e _ ps _ _ he =>
    obtain ⟨q, t, heq, hq, -⟩ := he.exists_legible
    refine ⟨[], _, rfl, rfl, ?_⟩
    rw [lefts_cons, Part.left, heq]
    exact trivia_of_quoted? (hq.quoted none rfl)
  | @same _ x v ps hstride _ ih =>
    by_cases hzero : (trivia language (lefts (.same x v :: ps))).1 = 0
    · exact ⟨[], _, rfl, rfl, hzero⟩
    · obtain ⟨js, ps', rfl, hsame, hlength⟩ := ih
      have hbehind := trivia_stride (x := x) (t := v ++ lefts (js ++ ps')) hzero
      rw [hstride.length, List.drop_left, hlength] at hbehind
      refine ⟨.same x v :: js, ps', rfl, by simp [Part.left, Part.right, hsame], hbehind.trans ?_⟩
      simp [Part.left]
      omega

/-- Behind white space and comments there are no more of them in either source. -/
lemma trivia_eq_zero {leads : Bool} (h : Sound language leads ps)
    (hzero : (trivia language (lefts ps)).1 = 0) : (trivia language (rights ps)).1 = 0 := by
  induction hn : ps.length using Nat.strongRecOn generalizing ps leads with
  | ind n ih =>
    subst hn
    obtain ⟨js, ps', hsplit, hsame, hlength⟩ := h.flip.exists_behind_trivia
    obtain ⟨ks, qs, rfl, rfl, rfl⟩ := List.map_eq_append_iff.1 hsplit
    simp only [lefts_map_flip, rights_map_flip] at hsame hlength
    cases ks with
    | nil => simpa using hlength
    | cons k ks =>
      have hright : (trivia language (rights qs)).1 = 0 := by
        have hdrop := trivia_drop_trivia language (rights (k :: ks ++ qs))
        rwa [hlength, rights_append, List.drop_left] at hdrop
      have hbehind := h.behind
      have hshorter : qs.length < (k :: ks ++ qs).length := by
        simp only [List.cons_append, List.length_cons, List.length_append]
        omega
      have hleft := ih qs.length hshorter hbehind.flip (by simpa using hright) (by simp)
      rw [rights_map_flip] at hleft
      rw [rights_append] at hlength ⊢
      rw [← trivia_congr hlength hbehind.head?.symm hleft, ← hsame, ← lefts_append]
      exact hzero

end Sound

/-- What is read is read behind the letters in front, which are known. -/
lemma quoted?_behind_marker {language : Language} {before : Option Char} {t u : Text}
    (ht : t = markerOf language before t ++ u) :
    quoted? language before t = (quoted? language (some '_') u).map
      (Option.map fun q => { q with marker := markerOf language before t }) := by
  generalize hmarker : markerOf language before t = marker at ht ⊢
  subst ht
  simp only [quoted?, markerOf_word, hmarker, List.drop_left, List.length_nil, List.drop_zero,
    Option.map_map]
  congr 1
  funext delimiter
  simp [Option.map_map, Function.comp_def]

/-- Behind a word character no letters belong to a string. -/
lemma marker_eq_nil_of_quoted? {language : Language} {t : Text} {q : Quoted}
    (h : quoted? language (some '_') t = some (some q)) : q.marker = [] := by
  obtain ⟨delimiter, -, hq⟩ := Option.map_eq_some_iff.1 h
  obtain ⟨content, -, rfl⟩ := Option.map_eq_some_iff.1 hq
  exact markerOf_word language _

/-- A line that starts with something on one line goes on from there. -/
lemma lineLength_append_cons {s t : Text} {y : Char} (hs : '\n' ∉ s) (hy : y ≠ '\n') :
    lineLength (s ++ y :: t) = s.length + 1 + lineLength t := by
  have hcons : lineLength (y :: t) = 1 + lineLength t :=
    lineLength_append (s := [y]) (by simpa using hy.symm) t
  rw [lineLength_append hs, hcons, Nat.add_assoc]

/-- A character literal is passed at once, whatever stands in front of it. -/
lemma sealedTail?_charLiteral {language : Language} {x : Char} {t : Text}
    (hx : language ≠ .python ∧ x = '\'') {before : Option Char}
    (hnone : quoted? language before (x :: t) = none)
    (hcomment : commentTail? language x t = none) (before' : Option Char) :
    sealedTail? language before' x t = some (charLiteralTail t) := by
  have hletters : ∀ b t, markerOf language b t = [] := by
    intro b t
    cases language <;> first | rfl | exact absurd rfl hx.1
  have hnone' : quoted? language before' (x :: t) = none := by
    rw [← hnone, quoted?, quoted?, hletters, hletters]
  simp only [sealedTail?, hcomment, literalTail?, hnone']
  simp [hx]

namespace Abreast

variable {language : Language} {ps : List Part} {c c' : Cursor} {x : Char} {v : Text}

/-- The letters in front of a string are the same. -/
lemma markerOf_eq (h : Abreast language (.same x v :: ps) c c') :
    markerOf language c'.before c'.rest = markerOf language c.before c.rest := by
  have hword : ∀ t, markerOf language c'.before t = markerOf language c.before t := fun t => by
    cases language <;> simp only [markerOf, pythonMarker, h.word]
  rw [hword, h.left, h.right]
  by_cases hx : x ∈ "rRbBuUfF".toList
  · obtain ⟨hplain, hleads⟩ := isLetter_of_mem hx
    obtain ⟨rfl, hbehind⟩ := h.sound.of_plain hplain
    rw [hleads] at hbehind
    refine markerOf_congr ?_ _
    cases hbehind with
    | nil => rfl
    | @same _ y w ps hstride' hbehind' =>
      have hheads : (w ++ rights ps).head? = (w ++ lefts ps).head? := by
        cases w with
        | nil => exact hbehind'.head?.symm
        | cons => rfl
      exact take_congr (s := [x, y]) (by simp) hheads
  · exact (markerOf_eq_nil hx).trans (markerOf_eq_nil hx).symm

/-- Behind the letters in front of a string the strides of both are the same. -/
lemma exists_behind_marker (h : Abreast language (.same x v :: ps) c c') :
    ∃ js ps', .same x v :: ps = js ++ ps' ∧ lefts js = markerOf language c.before c.rest ∧
      rights js = markerOf language c.before c.rest ∧
      quoted? language (some '_') (rights ps') = quoted? language (some '_') (lefts ps') ∧
      OpenSame ps' := by
  obtain ⟨u, hu⟩ := markerOf_prefix language c.before c.rest
  obtain ⟨js, ps', hsplit, hl, hr, hopen⟩ := h.sound.exists_behind_letters (fun _ _ _ => by simp)
    (fun y hy => isLetter_of_mem (mem_of_mem_markerOf hy)) (h.left.symm.trans hu.symm)
  refine ⟨js, ps', hsplit, hl, hr, ?_, hopen⟩
  have hsound := h.sound
  rw [hsplit] at hsound
  have hbehind := hsound.behind
  generalize lastly leadsOn (c.before.any leadsOn) (lefts js) = leads at hbehind
  cases hbehind with
  | nil => rfl
  | same hstride _ => exact hstride.quoted.symm
  | swapped => exact absurd rfl (hopen _ _ _)

/-- **Strings** are read the same, as long as both places stand in a part that both sources have.
Neither the string nor where it ends depends on what follows the part. -/
lemma quoted?_eq (h : Abreast language (.same x v :: ps) c c') :
    quoted? language c'.before c'.rest = quoted? language c.before c.rest := by
  obtain ⟨js, ps', hsplit, hl, hr, hquoted, -⟩ := h.exists_behind_marker
  have hmarker := h.markerOf_eq
  have hleft : c.rest = markerOf language c.before c.rest ++ lefts ps' := by
    conv_lhs => rw [h.left, hsplit, lefts_append, hl]
  have hright : c'.rest = markerOf language c'.before c'.rest ++ rights ps' := by
    conv_lhs => rw [h.right, hsplit, rights_append, hr, ← hmarker]
  rw [quoted?_behind_marker hleft, quoted?_behind_marker hright, hquoted, hmarker]

/-- A string is a part together with its letters, or the rest of its line if it never closes.  The
letters may have been parts of their own; the quotes are one part, since no part ends within a
string, and its length is that of the string without them. -/
lemma exists_string (h : Abreast language (.same x v :: ps) c c') {read : Option Quoted}
    (hread : quoted? language c.before c.rest = some read) {n : Nat}
    (hn : n = (read.map (·.source.length)).getD (lineLength c.rest)) :
    (∃ ps', Goes (.same x v :: ps) c c' ps' (c.advance n) (c'.advance n)) ∧
      (read = none → lineLength c'.rest = lineLength c.rest) := by
  subst hn
  obtain ⟨js, ps', hsplit, hl, hr, -, hopen⟩ := h.exists_behind_marker
  have hletters : '\n' ∉ markerOf language c.before c.rest := fun hmem =>
    absurd (mem_of_mem_markerOf hmem) (by decide)
  have hleft : c.rest = markerOf language c.before c.rest ++ lefts ps' := by
    conv_lhs => rw [h.left, hsplit, lefts_append, hl]
  have hright : c'.rest = markerOf language c.before c.rest ++ rights ps' := by
    rw [h.right, hsplit, rights_append, hr]
  rw [quoted?_behind_marker hleft] at hread
  generalize markerOf language c.before c.rest = marker at *
  obtain ⟨bare, hbehind, hmarked⟩ := Option.map_eq_some_iff.1 hread
  obtain ⟨y, z, hyz, hy, htail⟩ := strideTail_of_quoted? hbehind
  have hsound := h.sound
  rw [hsplit] at hsound
  have hsound := hsound.behind
  generalize lastly leadsOn (c.before.any leadsOn) (lefts js) = leads at hsound
  cases hsound with
  | nil => cases hyz
  | swapped => exact absurd rfl (hopen _ _ _)
  | @same _ y' w ps' hstride hps =>
    obtain ⟨rfl, rfl⟩ := List.cons.inj hyz
    have hlength := hstride.length.symm.trans htail
    have hall : (lefts (js ++ [.same y' w])).length = marker.length + 1 + w.length := by
      simp [hl, Part.left]
      omega
    have hsame : rights (js ++ [.same y' w]) = lefts (js ++ [.same y' w]) := by
      simp [hl, hr, Part.left, Part.right]
    suffices hcount : marker.length + 1 + w.length =
        (read.map (·.source.length)).getD (lineLength c.rest) ∧
          (read = none → lineLength c'.rest = lineLength c.rest) by
      refine ⟨⟨ps', js ++ [.same y' w], by simp [hsplit], ?_, ?_⟩, hcount.2⟩
      · rw [hall, hcount.1]
      · rw [hsame, hall, hcount.1]
    subst hmarked
    cases bare with
    | some q =>
      have hpos := length_source_pos hbehind
      have hbare := marker_eq_nil_of_quoted? hbehind
      refine ⟨?_, fun hnone => nomatch hnone⟩
      simp only [Option.map_some, Option.getD_some, Quoted.source, hbare, List.nil_append,
        List.length_append, List.length_nil] at hlength hpos ⊢
      omega
    | none =>
      have hline : lineLength (w ++ lefts ps') = w.length := hlength.symm
      have hline' : lineLength (w ++ rights ps') = w.length := lineLength_congr hline hps.head?
      have hleft' : lineLength (marker ++ y' :: (w ++ lefts ps')) =
          marker.length + 1 + w.length := by
        rw [lineLength_append_cons hletters hy, hline]
      have hright' : lineLength (marker ++ y' :: (w ++ rights ps')) =
          marker.length + 1 + w.length := by
        rw [lineLength_append_cons hletters hy, hline']
      rw [hleft, hright]
      exact ⟨hleft'.symm, fun _ => hright'.trans hleft'.symm⟩

/-- A string is passed at once in both, and so is the rest of its line if it never closes.  A string
has a length of its own, which is the same in both; the rest of a line has to be compared. -/
lemma exists_sealed_string (h : Abreast language (.same x v :: ps) c c')
    (hcomment : commentTail? language x (v ++ lefts ps) = none)
    (hcomment' : commentTail? language x (v ++ rights ps) = none) {read : Option Quoted}
    (hread : quoted? language c.before c.rest = some read) :
    sealedTail? language c'.before x (v ++ rights ps) =
        sealedTail? language c.before x (v ++ lefts ps) ∧
      ∃ ps', Goes (.same x v :: ps) c c' ps'
        (c.advance ((sealedTail? language c.before x (v ++ lefts ps)).getD 0 + 1))
        (c'.advance ((sealedTail? language c.before x (v ++ lefts ps)).getD 0 + 1)) := by
  have hleft : c.rest = x :: (v ++ lefts ps) := h.left
  have hright : c'.rest = x :: (v ++ rights ps) := h.right
  have hread' := h.quoted?_eq.trans hread
  obtain ⟨hgoes, hunclosed⟩ := h.exists_string hread rfl
  rw [hleft] at hread hgoes hunclosed
  rw [hright] at hread' hunclosed
  have hx : x ≠ '\n' := by
    rintro rfl
    rw [quoted?_eq_none (by decide)] at hread
    cases hread
  have hline : ∀ t, lineLength (x :: t) = lineLength t + 1 := fun t =>
    (lineLength_append_cons (s := []) (by simp) hx).trans (by simp [Nat.add_comm])
  simp only [hline] at hgoes hunclosed
  simp only [sealedTail?, hcomment, hcomment', literalTail?, hread, hread']
  cases read with
  | some q =>
    obtain ⟨n, hn⟩ := Nat.exists_eq_succ_of_ne_zero (length_source_pos hread).ne'
    refine ⟨rfl, ?_⟩
    simpa [hn] using hgoes
  | none =>
    have hlength : lineLength (v ++ rights ps) = lineLength (v ++ lefts ps) := by
      have hlength := hunclosed rfl
      omega
    refine ⟨by rw [hlength], ?_⟩
    simpa using hgoes

/-- **Comments and literals** are passed at once in both: a scan finds one in the one source if and
only if it finds one in the other, and comes to stand abreast behind it. -/
lemma exists_sealed (h : Abreast language (.same x v :: ps) c c') :
    sealedTail? language c'.before x (v ++ rights ps) =
        sealedTail? language c.before x (v ++ lefts ps) ∧
      ∃ ps', Goes (.same x v :: ps) c c' ps'
        (c.advance ((sealedTail? language c.before x (v ++ lefts ps)).getD 0 + 1))
        (c'.advance ((sealedTail? language c.before x (v ++ lefts ps)).getD 0 + 1)) := by
  obtain ⟨hstride, -⟩ := h.sound.of_same
  have hone : ∃ ps', Goes (.same x v :: ps) c c' ps'
      (c.advance (strideTail language x (v ++ lefts ps) + 1))
      (c'.advance (strideTail language x (v ++ lefts ps) + 1)) :=
    ⟨ps, [.same x v], rfl, by simp [Part.left, hstride.length],
      by simp [Part.right, hstride.length]⟩
  cases hcomment : commentTail? language x (v ++ lefts ps) with
  | some k =>
    have hcomment' := hstride.comment.symm.trans hcomment
    have hk : strideTail language x (v ++ lefts ps) = k := by
      simp [strideTail, sealedTail?, hcomment]
    rw [hk] at hone
    simpa [sealedTail?, hcomment, hcomment'] using hone
  | none =>
    have hcomment' := hstride.comment.symm.trans hcomment
    cases hread : quoted? language c.before c.rest with
    | some read => exact h.exists_sealed_string hcomment hcomment' hread
    | none =>
      have hrest : c.rest = x :: (v ++ lefts ps) := h.left
      have hrest' : c'.rest = x :: (v ++ rights ps) := h.right
      have hread' := h.quoted?_eq.trans hread
      rw [hrest] at hread
      rw [hrest'] at hread'
      by_cases happos : language ≠ .python ∧ x = '\''
      · have hleft := sealedTail?_charLiteral happos hread hcomment
        have hright := sealedTail?_charLiteral happos hread' hcomment'
        have hsame := hstride.sealed
        rw [hleft, hright, Option.some_inj] at hsame
        rw [hleft, hright, hsame]
        simp only [strideTail, hleft, hsame, Option.getD_some] at hone
        exact ⟨rfl, hone⟩
      · have hnone : ∀ {b : Option Char} {t : Text}, quoted? language b (x :: t) = none →
            commentTail? language x t = none → sealedTail? language b x t = none := by
          intro b t hquoted hcomment
          simp only [sealedTail?, hcomment, literalTail?, hquoted]
          simp [happos]
        have hleft := hnone hread hcomment
        rw [strideTail_of_sealedTail?_eq_none hleft] at hone
        rw [hleft, hnone hread' hcomment']
        exact ⟨rfl, hone⟩

/-! ### White space and comments -/

omit x v in
/-- **White space and comments** are passed in both, and none is left in front of what follows.
What is passed is the same text, so both places come to stand at the start of the same parts. -/
lemma skipTrivia (h : Abreast language ps c c') :
    ∃ ps', Goes ps c c' ps' (c.skipTrivia language) (c'.skipTrivia language) ∧
      trivia language c'.rest = trivia language c.rest ∧ (trivia language (lefts ps')).1 = 0 := by
  obtain ⟨js, ps', rfl, hsame, hlength⟩ := h.sound.exists_behind_trivia
  have hzero : (trivia language (lefts ps')).1 = 0 := by
    have hdrop := trivia_drop_trivia language (lefts (js ++ ps'))
    rwa [hlength, lefts_append, List.drop_left] at hdrop
  have htrivia : trivia language c'.rest = trivia language c.rest := by
    rw [lefts_append] at hlength
    rw [h.left, h.right, lefts_append, rights_append, hsame]
    exact trivia_congr hlength h.sound.behind.head? (h.sound.behind.trivia_eq_zero hzero)
  refine ⟨ps', ⟨js, rfl, ?_, ?_⟩, htrivia, hzero⟩
  · rw [Cursor.skipTrivia, h.left, hlength]
  · rw [Cursor.skipTrivia, htrivia, h.left, hlength, hsame]

end Abreast

end SqlInlay.Host
