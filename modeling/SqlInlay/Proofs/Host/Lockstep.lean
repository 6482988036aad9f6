import SqlInlay.Proofs.Host.Abreast

/-!
# Scans in lockstep

The scans of two sources that are read abreast answer alike.  For what a scan passes in one stride
this is `Abreast.exists_sealed`; here it is said of what is read from there on, definition by
definition, up to all that the annotations of a source hold.

* **Names.**  They are read letter by letter and so are parts of their own: `qualifiedLength_eq` for
  the name of an annotation, `namedArgument?_eq` for that of an argument.
* **Strings.**  `Abreast.fragmentsAt` finds the strings of an expression in both sources.  They need
  not be as many: where an expression is swapped, its strings are replaced by others, but they end
  at the same place.
* **Arguments.**  The scans divide the arguments alike (`Abreast.argumentsFrom`).  What is the same
  of two arguments is said by `Argument.Follows`: the name, whether the value is a literal, and for
  a value without quotes its source.
* **Annotations.**  The query is found among arguments by their names and the dialect by a flag that
  has no quotes, so both come out the same (`queryArgument?_rel`, `dialectOf_rel`).

What the annotations of both sources hold is then the same but for the literals that are swapped
(`Abreast.locateFrom`).
-/

namespace SqlInlay.Host

open SqlInlay.Text

/-! ## Names -/

lemma isLetter_of_isIdent {x : Char} (h : isIdentStart x = true ∨ isIdentChar x = true) :
    IsLetter x := by
  refine ⟨not_mem_of_isIdent h, ?_⟩
  have hword : isHostWordChar x = true := by
    simp only [isIdentStart, isIdentChar, Bool.or_eq_true] at h
    simp only [isHostWordChar, Bool.or_eq_true]
    rcases h with (h | h) | (h | h)
    · exact .inl (.inl (isAlphanumeric_of_isAlphanum (by simp [Char.isAlphanum, h])))
    · exact .inl (.inr h)
    · exact .inl (.inl (isAlphanumeric_of_isAlphanum h))
    · exact .inl (.inr h)
  simp [leadsOn, hword]

namespace Sound

variable {language : Language} {leads : Bool} {ps : List Part}

/-- A run of letters is the same in both sources. -/
lemma takeWhile_eq {p : Char → Bool} (hp : ∀ x, p x = true → IsLetter x)
    (h : Sound language leads ps) (hopen : OpenSame ps) :
    (rights ps).takeWhile p = (lefts ps).takeWhile p := by
  induction h with
  | nil => rfl
  | swapped => exact absurd rfl (hopen _ _ _)
  | @same _ x v ps hstride hps ih =>
    simp only [lefts_cons, rights_cons, Part.left, Part.right, List.cons_append,
      List.takeWhile_cons]
    split
    · rename_i hx
      obtain ⟨rfl, hsound⟩ := (Sound.same hstride hps).of_plain (hp x hx).1
      rw [(hp x hx).2] at hsound
      simpa using ih hsound.openSame
    · rfl

lemma identLength_eq (h : Sound language leads ps) (hopen : OpenSame ps) :
    identLength (rights ps) = identLength (lefts ps) := by
  cases h with
  | nil => rfl
  | swapped => exact absurd rfl (hopen _ _ _)
  | @same _ x v ps hstride hps =>
    simp only [lefts_cons, rights_cons, Part.left, Part.right, List.cons_append, identLength]
    split
    · rename_i hx
      have hletter := isLetter_of_isIdent (.inl hx)
      obtain ⟨rfl, hsound⟩ := (Sound.same hstride hps).of_plain hletter.1
      rw [hletter.2] at hsound
      rw [List.nil_append, List.nil_append, hsound.takeWhile_eq
        (fun y hy => isLetter_of_isIdent (.inr hy)) hsound.openSame]
    · rfl

end Sound

lemma identLength_le (t : Text) : identLength t ≤ t.length := by
  by_cases hzero : identLength t = 0
  · omega
  · obtain ⟨name, u, rfl, hlength, -⟩ := exists_of_identLength hzero
    simp [hlength]

lemma qualifiedLength_le (t : Text) : qualifiedLength t ≤ t.length := by
  fun_induction qualifiedLength t with
  | case1 t n u hdot hmore ih =>
    have hlength := congrArg List.length hdot
    simp only [List.length_drop, List.length_cons] at hlength
    omega
  | case2 t => exact identLength_le t
  | case3 t => exact identLength_le t

/-- A name goes on behind a dot if an identifier follows. -/
lemma qualifiedLength_dot {name u : Text} (h : identLength (name ++ '.' :: u) = name.length) :
    qualifiedLength (name ++ '.' :: u) =
      if name.length > 0 ∧ identLength u > 0 then name.length + 1 + qualifiedLength u
      else name.length := by
  have hdrop : (name ++ '.' :: u).drop (identLength (name ++ '.' :: u)) = '.' :: u := by
    rw [h, List.drop_left]
  rw [qualifiedLength]
  split
  · rename_i w hw
    obtain ⟨-, rfl⟩ := List.cons.inj (hdrop.symm.trans hw)
    rw [h]
  · rename_i hne
    exact absurd hdrop (hne u)

lemma qualifiedLength_append {name u : Text} (h : identLength (name ++ u) = name.length)
    (hu : '.' ∉ u.head?) : qualifiedLength (name ++ u) = name.length := by
  rw [qualifiedLength]
  split
  · rename_i w hw
    rw [h, List.drop_left] at hw
    exact absurd rfl (hw ▸ hu)
  · exact h

namespace Sound

variable {language : Language} {leads : Bool} {ps : List Part}

/-- **Names** are the same in both sources.  Their letters and dots stand in parts that both sources
have, and a name ends in both where it ends in one. -/
lemma qualifiedLength_eq (h : Sound language leads ps) (hopen : OpenSame ps) :
    qualifiedLength (rights ps) = qualifiedLength (lefts ps) := by
  induction hn : ps.length using Nat.strongRecOn generalizing ps leads with
  | ind n ih =>
    subst hn
    have hlength := h.identLength_eq hopen
    obtain ⟨u, hu⟩ := List.take_prefix (identLength (lefts ps)) (lefts ps)
    obtain ⟨js, ps', rfl, hleft, hright, hopen'⟩ := h.exists_behind_letters hopen
      (fun x hx => isLetter_of_isIdent (isIdent_of_mem_take hx)) hu.symm
    have hname : (lefts js).length = identLength (lefts (js ++ ps')) := by
      rw [hleft, List.length_take, min_eq_left (identLength_le _)]
    rw [← hname, rights_append, hright, ← hleft] at hlength
    rw [lefts_append] at hname
    rw [lefts_append, rights_append, hright, ← hleft]
    have hbehind := h.behind
    have hhead := hbehind.head?
    generalize Host.lastly leadsOn leads (lefts js) = leads' at hbehind
    by_cases hdot : '.' ∈ (lefts ps').head?
    · cases hbehind with
      | nil => cases hdot
      | swapped => exact absurd rfl (hopen' _ _ _)
      | @same _ x v ps' hstride hps =>
        obtain rfl : x = '.' := Option.some.inj hdot
        obtain ⟨rfl, hsound⟩ := (Sound.same hstride hps).of_plain (by decide)
        have hmore : Sound language true ps' := hsound
        have hopen'' := hmore.openSame
        have hlength : identLength (lefts js ++ '.' :: rights ps') = (lefts js).length := hlength
        have hname : identLength (lefts js ++ '.' :: lefts ps') = (lefts js).length := hname.symm
        change qualifiedLength (lefts js ++ '.' :: rights ps') =
          qualifiedLength (lefts js ++ '.' :: lefts ps')
        rw [qualifiedLength_dot hlength, qualifiedLength_dot hname,
          hmore.identLength_eq hopen'', ih ps'.length (by simp; omega) hmore hopen'' rfl]
    · have hdot' : '.' ∉ (rights ps').head? := hhead ▸ hdot
      rw [qualifiedLength_append hlength hdot', qualifiedLength_append hname.symm hdot]

/-- What stands in front of a named value is the same in both sources.  The name is letters and the
rest blanks and a sign, so all of it lies in parts that are the same; and what follows the equals
sign starts alike. -/
lemma exists_behind_name (h : Sound language leads ps) {name : Text} {n : Nat}
    (hname : namedArgument? (lefts ps) = some (name, n)) :
    ∃ js ps', ps = js ++ ps' ∧ rights js = lefts js ∧ (lefts js).length = n ∧
      namedArgument? (rights ps) = some (name, n) := by
  obtain ⟨blanks, u, hu, hn, hident, hblanks, hequals⟩ := namedArgument?_eq_some_iff.1 hname
  have hopen : OpenSame ps := by
    rintro e e' ps' rfl
    cases h with
    | swapped he =>
      rw [lefts_cons, Part.left, he.namedArgument?_eq] at hname
      cases hname
  obtain ⟨js, ps₁, rfl, hl, hr, -⟩ := h.exists_behind_letters hopen
    (hident.forall _ (fun _ => isLetter_of_isIdent)) hu
  have hbehind := h.behind
  rw [lefts_append, hl] at hu
  obtain ⟨ks, ps₂, rfl, hl', hr'⟩ := hbehind.exists_behind_signs
    (m := blanks ++ ['=']) (u := u) (by
      intro x hx
      rcases List.mem_append.1 hx with hx | hx
      · have hidle := not_mem_of_isIdle (isIdle_of_isBlank (hblanks x hx))
        exact List.notMem_of_subset (by decide) hidle
      · rw [List.mem_singleton.1 hx]
        decide) (by simpa using List.append_cancel_left hu)
  have hrest : u = lefts ps₂ := by
    rw [lefts_append, hl'] at hu
    simpa using (List.append_cancel_left hu).symm
  refine ⟨js ++ ks, ps₂, by simp, by simp [hl, hr, hl', hr'],
    by simp [hl, hl', hn, Nat.add_assoc], ?_⟩
  refine namedArgument?_eq_some_iff.2
    ⟨blanks, rights ps₂, by simp [hr, hr'], hn, hident, hblanks, ?_⟩
  rwa [← hbehind.behind.head?, ← hrest]

/-- **Arguments** are named alike in both sources: a name and the sign behind it stand in a part
that both sources have, and so do the blanks between them. -/
lemma namedArgument?_eq (h : Sound language leads ps) :
    namedArgument? (rights ps) = namedArgument? (lefts ps) := by
  refine Option.ext fun ⟨name, n⟩ => ⟨fun hname => ?_, fun hname => ?_⟩
  · obtain ⟨-, -, -, -, -, hname'⟩ := h.flip.exists_behind_name (by simpa using hname)
    simpa using hname'
  · exact (h.exists_behind_name hname).choose_spec.choose_spec.2.2.2

end Sound

/-! ## Strings -/

namespace Abreast

variable {buffer : Nat} {language : Language} {ps : List Part} {c c' : Cursor} {e e' : Text}

/-- Where an expression stands in place of another one. -/
lemma of_swapped (h : Abreast language (.swapped e e' :: ps) c c') :
    c.IsApart ∧ c'.IsApart ∧ EndsText language (lefts ps) ∧
      (∃ qs, Expression language (lefts ps) e qs) ∧
        ∃ qs', Expression language (rights ps) e' qs' := by
  have hsound := h.sound
  have hleads := h.leads
  rw [Cursor.IsApart, Cursor.IsApart, hleads]
  generalize c.before.any leadsOn = leads at hsound
  cases hsound with
  | swapped he he' hhead hend hend' hps => exact ⟨rfl, rfl, hend, ⟨_, he⟩, _, he'⟩

/-- Both scans go on behind what is swapped. -/
lemma goes_swapped :
    Goes (.swapped e e' :: ps) c c' ps (c.advance e.length) (c'.advance e'.length) :=
  ⟨[.swapped e e'], rfl, by simp [Part.left], by simp [Part.right]⟩

/-- **A string** starts in both sources or in none.  It need not be the same string, if an
expression of one source is swapped for another there. -/
lemma isSome_quoted? (h : Abreast language ps c c') :
    (quoted? language c'.before c'.rest).isSome = (quoted? language c.before c.rest).isSome := by
  cases ps with
  | nil =>
    have hnil : ∀ b : Option Char, quoted? language b [] = none := fun b => by
      cases language <;> simp [quoted?, markerOf, pythonMarker, delimiter?, opensWith, after?]
    rw [h.left, h.right, lefts_nil, rights_nil, hnil, hnil]
  | cons p ps =>
    cases p with
    | same x v => rw [h.quoted?_eq]
    | swapped e e' =>
      obtain ⟨hc, hc', -, ⟨qs, he⟩, qs', he'⟩ := h.of_swapped
      obtain ⟨q, t, heq, hq, -⟩ := he.exists_legible
      obtain ⟨q', t', heq', hq', -⟩ := he'.exists_legible
      rw [h.left, h.right, lefts_cons, rights_cons, Part.left, Part.right, heq, heq',
        hq.quoted _ hc.isFree, hq'.quoted _ hc'.isFree]
      rfl

/-- **A further string** is joined in both sources or in none.  A plus sign stands in a part that
both have, and where there is none it is asked whether a string starts. -/
lemma joinerAt (h : Abreast language ps c c') (continued : Bool) :
    (joinerAt language continued c = none ∧ joinerAt language continued c' = none) ∨
      ∃ joiner ps' d d', joinerAt language continued c = some (joiner, d) ∧
        joinerAt language continued c' = some (joiner, d') ∧ Goes ps c c' ps' d d' := by
  have hhead : c'.rest.head? = c.rest.head? := by rw [h.left, h.right, h.sound.head?]
  unfold Host.joinerAt
  rw [hhead, h.isSome_quoted?]
  split
  · rename_i hplus
    obtain ⟨u, hu⟩ := List.head?_eq_some_iff.1 hplus
    obtain ⟨js, ps₁, rfl, hl, hr⟩ := h.sound.exists_behind_signs (m := ['+']) (u := u) (by simp)
      (h.left.symm.trans hu)
    have hgoes : Goes (js ++ ps₁) c c' ps₁ (c.advance 1) (c'.advance 1) :=
      ⟨js, rfl, by rw [hl]; rfl, by rw [hr]; rfl⟩
    obtain ⟨ps₂, hskip, -, -⟩ := (hgoes.abreast h).skipTrivia
    exact .inr ⟨_, ps₂, _, _, rfl, rfl, hgoes.trans hskip⟩
  · split
    · exact .inr ⟨_, ps, _, _, rfl, rfl, .refl ps c c'⟩
    · exact .inl ⟨rfl, rfl⟩

/-- Fragments read from an expression on are its strings, and so are those in the other source. -/
lemma fragmentsAt_swapped (h : Abreast language (.swapped e e' :: ps) c c')
    {fragments : List Fragment} {d : Cursor} (hd : FragmentsAt buffer language c fragments d)
    (hends : d.EndsStrings language) :
    ∃ ps' d' fragments', Goes (.swapped e e' :: ps) c c' ps' d d' ∧
      FragmentsAt buffer language c' fragments' d' := by
  obtain ⟨hc, hc', hend, ⟨qs, he⟩, qs', he'⟩ := h.of_swapped
  have hleft : c.rest = e ++ lefts ps := h.left
  obtain ⟨fs, hfs⟩ := he.fragmentsAt buffer hleft hc.isFree
  obtain ⟨fs', hfs'⟩ := he'.fragmentsAt buffer h.right hc'.isFree
  have hlast : (c.advance e.length).EndsStrings language := by
    obtain ⟨x, u, hrest, hx⟩ := hend
    refine Cursor.EndsArgument.endsStrings ⟨x, u, ?_, hx⟩
    have hbehind := (Cursor.advance_append hleft).1
    rw [Cursor.skipTrivia, hbehind, ← hrest, Cursor.advance, hbehind]
  obtain rfl := hd.end_unique hfs hends hlast
  exact ⟨ps, _, fs', goes_swapped, hfs'⟩

/-- **Fragments** of the one source have their like in the other.  Those in a part that both have
are the same; where an expression is swapped they are its strings, and the others those of its
counterpart. -/
lemma fragmentsAt (h : Abreast language ps c c') {fragments : List Fragment} {d : Cursor}
    (hd : FragmentsAt buffer language c fragments d) (hends : d.EndsStrings language) :
    ∃ ps' d' fragments', Goes ps c c' ps' d d' ∧ FragmentsAt buffer language c' fragments' d' := by
  have hne : ∀ {c c' : Cursor} {q : Quoted}, Abreast language [] c c' →
      quoted? language c.before c.rest = some (some q) → False := by
    intro c c' q h hq
    have hpos := length_source_pos hq
    obtain ⟨rest, hrest⟩ := prefix_of_quoted? hq
    rw [h.left] at hrest
    rw [(List.append_eq_nil_iff.1 hrest).1] at hpos
    cases hpos
  induction hd generalizing ps c' with
  | @last c q hq hplain =>
    match ps, h with
    | [], h => exact (hne h hq).elim
    | .swapped e e' :: ps, h => exact h.fragmentsAt_swapped (.last hq hplain) hends
    | .same x v :: ps, h =>
      obtain ⟨⟨ps', hgoes⟩, -⟩ := h.exists_string hq rfl
      exact ⟨ps', _, _, hgoes, .last (h.quoted?_eq.trans hq) hplain⟩
  | @cons c following d q continued joiner fragments hq hplain hjoiner hd ih =>
    match ps, h with
    | [], h => exact (hne h hq).elim
    | .swapped e e' :: ps, h => exact h.fragmentsAt_swapped (.cons hq hplain hjoiner hd) hends
    | .same x v :: ps, h =>
      obtain ⟨⟨ps₁, hgoes⟩, -⟩ := h.exists_string hq (n := q.source.length) rfl
      obtain ⟨ps₂, hskip, -, -⟩ := (hgoes.abreast h).skipTrivia
      have hnext := hgoes.trans hskip
      rcases (hnext.abreast h).joinerAt continued with
        ⟨hnone, -⟩ | ⟨joiner', ps₃, n, n', hn, hn', hj⟩
      · cases hnone.symm.trans hjoiner
      · obtain ⟨rfl, rfl⟩ := Prod.mk.inj (Option.some.inj (hn.symm.trans hjoiner))
        have hfollowing := hnext.trans hj
        obtain ⟨ps₄, d', fragments', hlast, hfragments⟩ := ih (hfollowing.abreast h) hends
        exact ⟨ps₄, d', _, hfollowing.trans hlast,
          .cons (h.quoted?_eq.trans hq) hplain hn' hfragments⟩

end Abreast

/-! ## Arguments -/

/-- Text without quotes is the same in both sources. -/
lemma Sound.rights_eq {language : Language} {leads : Bool} {js ps : List Part}
    (h : Sound language leads (js ++ ps)) (hquote : ∀ x ∈ lefts js, x ≠ '"' ∧ x ≠ '\'') :
    rights js = lefts js := by
  induction js generalizing leads with
  | nil => rfl
  | cons j js ih =>
    rw [lefts_cons, List.forall_mem_append] at hquote
    cases h with
    | same hstride hps => simp [Part.left, Part.right, ih hps hquote.2]
    | swapped he =>
      obtain ⟨s, y, hs⟩ := List.eq_nil_or_concat _ |>.resolve_left he.ne_nil
      have hy := hquote.1 y (by simp [Part.left, hs])
      rcases he.getLast? y (by simp [hs]) with rfl | rfl
      · exact absurd rfl hy.1
      · exact absurd rfl hy.2

/-- The characters of a text are blanks, or are left when it is trimmed. -/
lemma isBlank_or_mem_trim {t : Text} {x : Char} (h : x ∈ t) : isBlank x = true ∨ x ∈ trim t := by
  rw [← List.takeWhile_append_dropWhile (p := isBlank) (l := t), List.mem_append] at h
  rcases h with h | h
  · exact .inl (List.mem_takeWhile_imp h)
  · obtain ⟨tail, hsplit, htail⟩ := exists_eq_trimEndWhile_append isBlank (t.dropWhile isBlank)
    rw [hsplit, List.mem_append] at h
    exact h.symm.imp (htail x) id

/-- What of an argument is the same in the other source, whatever is swapped in it: its name,
whether it is the word that makes a query native, and that it is made of strings if it is. -/
structure Argument.Follows (buffer : Nat) (language : Language) (a a' : Argument) : Prop where
  name : a'.name = a.name
  flag : trim a.source = "true".toList → trim a'.source = "true".toList
  fragments : (∃ fs, fragmentsFrom buffer language a.stop a.value = .ok fs) →
    ∃ fs, fragmentsFrom buffer language a'.stop a'.value = .ok fs

/-- Arguments of which each follows the other.  Which sources they are of does not matter then. -/
def Argument.Kin (buffer : Nat) (language : Language) (a a' : Argument) : Prop :=
  a.Follows buffer language a' ∧ a'.Follows buffer language a

/-- An argument that holds nothing is followed by any of its name. -/
lemma Argument.follows_of_stop {buffer : Nat} {language : Language} {a a' : Argument}
    (hname : a'.name = a.name) (hstop : a.value.offset = a.stop) :
    a.Follows buffer language a' := by
  refine ⟨hname, fun hflag => ?_, fun ⟨fs, hfs⟩ => absurd hfs (Argument.ne_ok_of_stop hstop fs)⟩
  rw [Argument.source_of_stop hstop] at hflag
  cases hflag

namespace Abreast

variable {buffer : Nat} {language : Language} {ps ps₁ ps₂ : List Part} {s s' c c' d d' : Cursor}
  {a a' : Argument}

/-- An argument whose value stands at a place that both scans come to.  The value of a flag has no
string in it and is the same in both.  The strings of a query are read one after another, each at a
place that both scans come to. -/
lemma follows (h : Abreast language ps s s') (hapart : s.IsApart) (hv : Goes ps s s' ps₁ c c')
    (hd : Goes ps₁ c c' ps₂ d d') (hend : d.EndsArgument) (ha : ArgumentAt language s d a)
    (ha' : ArgumentAt language s' d' a') (hname : a'.name = a.name) (hvalue : a.value = c)
    (hvalue' : a'.value = c') : a.Follows buffer language a' := by
  have hc := hv.abreast h
  have hreach := (hv.trans hd).meets h
  have hreach' := (hv.trans hd).flip.meets h.flip
  obtain ⟨js, rfl, hjs, hjs'⟩ := id hd
  refine ⟨hname, fun hflag => ?_, fun ⟨fs, hfs⟩ => ?_⟩
  · have hrest : c.rest = lefts js ++ d.rest := by
      rw [hc.left, (hd.abreast hc).left, lefts_append]
    have hrest' : c'.rest = rights js ++ d'.rest := by
      rw [hc.right, (hd.abreast hc).right, rights_append]
    have htrim := ha.trim_source (hvalue ▸ (hv.meets h).1) (hvalue ▸ hrest)
    have htrim' := ha'.trim_source (hvalue' ▸ (hv.flip.meets h.flip).1) (hvalue' ▸ hrest')
    rw [htrim] at hflag
    rw [htrim', hc.sound.rights_eq fun x hx => ?_, hflag]
    rcases isBlank_or_mem_trim hx with hblank | hmem
    · constructor <;> rintro rfl <;> exact absurd hblank (by decide)
    · rw [hflag] at hmem
      constructor <;> rintro rfl <;> exact absurd hmem (by decide)
  · obtain ⟨-, -, last, hlast, hskip⟩ := ha.ends hreach hapart hend hfs
    rw [hvalue] at hlast
    obtain ⟨ps₃, last', fs', hgoes, hlast'⟩ :=
      hc.fragmentsAt hlast (Cursor.EndsArgument.endsStrings (hskip ▸ hend))
    obtain ⟨ps₄, hnext, -, -⟩ := (hgoes.abreast hc).skipTrivia
    have hsame := (hgoes.trans hnext).unique hd hc hskip
    obtain ⟨fs₁, hfs₁, -⟩ := ha'.exists_fragmentsFrom hreach'.1
      (hvalue' ▸ (hv.flip.meets h.flip).1) (hvalue' ▸ hlast') hsame.2
    exact ⟨fs₁, hfs₁⟩

/-- What ends an argument ends it in both sources. -/
lemma endsArgument (h : Abreast language ps d d') (hend : d.EndsArgument) : d'.EndsArgument := by
  obtain ⟨x, u, hrest, hx⟩ := hend
  have hhead := h.sound.head?
  rw [← h.left, ← h.right, hrest] at hhead
  obtain ⟨u', hu'⟩ := List.head?_eq_some_iff.1 hhead.symm
  exact ⟨x, u', hu', hx⟩

lemma isApart (h : Abreast language ps c c') (hapart : c.IsApart) : c'.IsApart :=
  h.leads.trans hapart

/-- The arguments at two places that are abreast follow one another.  They are both named alike or
both not named; where a named one has no value in front of its end, neither has the other one. -/
lemma argumentAt_follows (h : Abreast language ps s s') (hapart : s.IsApart)
    (hd : Goes ps s s' ps₂ d d') (hend : d.EndsArgument)
    (ha : ArgumentAt language s d a) (ha' : ArgumentAt language s' d' a') :
    a.Follows buffer language a' := by
  have hsame : namedArgument? s'.rest = namedArgument? s.rest := by
    rw [h.left, h.right, h.sound.namedArgument?_eq]
  rcases ha.value with ⟨hnone, hname, hvalue⟩ | ⟨name, n, hnamed, hname, hvalue⟩ <;>
    rcases ha'.value with ⟨hnone', hname', hvalue'⟩ | ⟨name', n', hnamed', hname', hvalue'⟩
  · exact h.follows hapart (.refl ..) hd hend ha ha' (hname'.trans hname.symm) hvalue hvalue'
  · cases (hsame.trans hnone).symm.trans hnamed'
  · cases (hsame.trans hnamed).symm.trans hnone'
  · obtain ⟨rfl, rfl⟩ : name = name' ∧ n = n' := by
      simpa using (hsame.trans hnamed).symm.trans hnamed'
    have hnames := hname'.trans hname.symm
    rcases hvalue with ⟨hvalue, hfront⟩ | ⟨-, hstop⟩
    · obtain ⟨js, ps₁, rfl, hsame, rfl, -⟩ := h.sound.exists_behind_name (h.left ▸ hnamed)
      have hnext : Goes (js ++ ps₁) s s' ps₁ (s.advance (lefts js).length)
          (s'.advance (lefts js).length) := ⟨js, rfl, rfl, by rw [hsame]⟩
      obtain ⟨ps₃, hskip, -, -⟩ := (hnext.abreast h).skipTrivia
      have hv := hnext.trans hskip
      rw [hvalue] at hfront
      obtain ⟨hfront', hbetween⟩ := hv.offset_lt hd h hfront
      rcases hvalue' with ⟨hvalue', -⟩ | ⟨hbehind', -⟩
      · exact h.follows hapart hv hbetween hend ha ha' hnames hvalue hvalue'
      · omega
    · exact Argument.follows_of_stop hnames hstop

/-- **The arguments** between two places are of a kind in both sources, or there are none.  The
places correspond, and an argument ends at the second one. -/
lemma argumentBetween (h : Abreast language ps s s') (hapart : s.IsApart)
    (hd : Goes ps s s' ps₂ d d') (hend : d.EndsArgument) :
    List.Forall₂ (Argument.Kin buffer language) (argumentBetween language s d.offset).toList
      (argumentBetween language s' d'.offset).toList := by
  have hmeets := hd.meets h
  have hmeets' := hd.flip.meets h.flip
  have hend' := (hd.abreast h).endsArgument hend
  obtain ⟨ps₁, hskip, -, -⟩ := h.skipTrivia
  rcases argumentBetween_cases hmeets hend with ⟨hnone, hle⟩ | ⟨a, ha, hlt, hat⟩ <;>
    rcases argumentBetween_cases hmeets' hend' with ⟨hnone', hle'⟩ | ⟨a', ha', hlt', hat'⟩
  · rw [hnone, hnone']
    exact .nil
  · have hlt := (hskip.flip.offset_lt hd.flip h.flip hlt').1
    omega
  · have hlt' := (hskip.offset_lt hd h hlt).1
    omega
  · rw [ha, ha']
    have hgoes := (hskip.offset_lt hd h hlt).2
    have hnext := hskip.abreast h
    have hinner := hend.isApart_skipTrivia hapart (hgoes.meets hnext)
    exact .cons ⟨hnext.argumentAt_follows hinner hgoes hend hat hat',
      hnext.flip.argumentAt_follows (hnext.isApart hinner) hgoes.flip hend' hat' hat⟩ .nil

/-- One character that is passed by itself. -/
lemma goes_one (h : Abreast language ps c c') {x : Char} {t : Text} (hrest : c.rest = x :: t)
    (hx : x ∉ "rRbBuUfF\"'#/".toList) : ∃ ps₁, Goes ps c c' ps₁ (c.advance 1) (c'.advance 1) := by
  obtain ⟨js, ps₁, rfl, hl, hr⟩ := h.sound.exists_behind_signs (m := [x]) (u := t)
    (by simpa using hx) (h.left.symm.trans hrest)
  exact ⟨ps₁, js, rfl, by rw [hl]; rfl, by rw [hr]; rfl⟩

variable (buffer) in
/-- **The arguments** up to the closing parenthesis are of a kind in both sources.  The induction
follows the scan from the place where it stands; the place where the argument at hand started goes
along. -/
theorem argumentsFrom {depth : Nat} (h : Abreast language ps s s') (hapart : s.IsApart)
    (hc : Goes ps s s' ps₁ c c') {arguments : List Argument} {stop : Cursor}
    (harguments : argumentsFrom language depth s c = some (arguments, stop)) :
    ∃ arguments' ps₂ stop', argumentsFrom language depth s' c' = some (arguments', stop') ∧
      Goes ps₁ c c' ps₂ stop stop' ∧
      List.Forall₂ (Argument.Kin buffer language) arguments arguments' := by
  induction hn : ps₁.length using Nat.strongRecOn
    generalizing depth ps ps₁ s s' c c' arguments with
  | ind n ih =>
    subst hn
    have habreast := hc.abreast h
    match ps₁, hc, habreast with
    | [], hc, habreast =>
      rw [argumentsFrom_nil habreast.left] at harguments
      cases harguments
    | .swapped e e' :: ps₁, hc, habreast =>
      obtain ⟨hfree, hfree', -, ⟨qs, he⟩, qs', he'⟩ := habreast.of_swapped
      have hgoes : Goes (.swapped e e' :: ps₁) c c' ps₁ _ _ := goes_swapped
      rw [argumentsFrom_pass he habreast.left hfree.isFree] at harguments
      rw [argumentsFrom_pass he' habreast.right hfree'.isFree]
      obtain ⟨arguments', ps₂, stop', hfrom, hbehind, hkin⟩ :=
        ih ps₁.length (by simp) h hapart (hc.trans hgoes) harguments rfl
      exact ⟨arguments', ps₂, stop', hfrom, hgoes.trans hbehind, hkin⟩
    | .same x v :: ps₁, hc, habreast =>
      have hleft : c.rest = x :: (v ++ lefts ps₁) := habreast.left
      have hright : c'.rest = x :: (v ++ rights ps₁) := habreast.right
      obtain ⟨hsealed, ps', hgoes⟩ := habreast.exists_sealed
      have hshorter : ps'.length < (Part.same x v :: ps₁).length :=
        hgoes.length_lt (Cursor.advance_lt (Nat.succ_pos _) (by simp [hleft]))
      have hnext := hc.trans hgoes
      rw [argumentsFrom_cons hleft] at harguments
      rw [argumentsFrom_cons hright, hsealed]
      cases hread : sealedTail? language c.before x (v ++ lefts ps₁) with
      | some k =>
        simp only [hread, Option.getD_some] at harguments hgoes hnext ⊢
        obtain ⟨arguments', ps₂, stop', hfrom, hbehind, hkin⟩ :=
          ih _ hshorter h hapart hnext harguments rfl
        exact ⟨arguments', ps₂, stop', hfrom, hgoes.trans hbehind, hkin⟩
      | none =>
        simp only [hread, Option.getD_none, Nat.zero_add] at harguments hgoes hnext ⊢
        cases hsign : argumentSign depth x with
        | inside depth' =>
          simp only [hsign] at harguments ⊢
          obtain ⟨arguments', ps₂, stop', hfrom, hbehind, hkin⟩ :=
            ih _ hshorter h hapart hnext harguments rfl
          exact ⟨arguments', ps₂, stop', hfrom, hgoes.trans hbehind, hkin⟩
        | close =>
          simp only [hsign, Option.some.injEq, Prod.mk.injEq] at harguments ⊢
          obtain ⟨rfl, rfl⟩ := harguments
          exact ⟨_, ps', _, ⟨rfl, rfl⟩, hgoes, h.argumentBetween hapart hc
            ⟨x, _, hleft, .inr (eq_of_argumentSign_close hsign)⟩⟩
        | comma =>
          simp only [hsign] at harguments ⊢
          have hx := eq_of_argumentSign_comma hsign
          obtain ⟨⟨more, stop₁⟩, hmore, heq⟩ := Option.map_eq_some_iff.1 harguments
          simp only [Prod.mk.injEq] at heq
          obtain ⟨rfl, rfl⟩ := heq
          have hapart' : (c.advance 1).IsApart :=
            Cursor.isApart_advance_one hleft (by rw [hx]; decide +kernel)
          obtain ⟨more', ps₂, stop', hfrom, hbehind, hkin⟩ :=
            ih _ hshorter (hgoes.abreast habreast) hapart' (.refl ..) hmore rfl
          refine ⟨_, ps₂, stop', by rw [hfrom]; rfl, hgoes.trans hbehind, ?_⟩
          exact List.rel_append (h.argumentBetween hapart hc ⟨x, _, hleft, .inl hx⟩) hkin

end Abreast

/-! ## Annotations -/

/-- The two candidates are literals of the same annotation in the same dialect, or both no
literals. -/
def Candidate.Kin : Candidate → Candidate → Prop
  | .literal l, .literal l' => l'.name = l.name ∧ l'.dialect = l.dialect
  | .skipped .., .skipped .. => True
  | _, _ => False

section

variable {buffer : Nat} {language : Language} {arguments arguments' : List Argument}

/-- The query is among the arguments in both sources or in none, if the arguments of both have the
same names. -/
lemma queryArgument?_rel (marks : Annotations) {R : Argument → Argument → Prop}
    (hname : ∀ {a a'}, R a a' → a'.name = a.name) (h : List.Forall₂ R arguments arguments') :
    Option.Rel R (queryArgument? marks arguments) (queryArgument? marks arguments') := by
  have hfind : ∀ p : Option Text → Bool, Option.Rel R
      (arguments.find? fun a => p a.name) (arguments'.find? fun a => p a.name) := by
    intro p
    induction h with
    | nil => exact .none
    | @cons a a' arguments arguments' ha h ih =>
      rw [List.find?_cons, List.find?_cons, hname ha]
      split
      · exact .some ha
      · exact ih
  have hunnamed := hfind (·.isNone)
  have hnamed := hfind (·.any marks.isQueryAttribute)
  unfold queryArgument?
  generalize (arguments.find? fun a => a.name.isNone) = read at hunnamed ⊢
  generalize (arguments'.find? fun a => a.name.isNone) = read' at hunnamed ⊢
  cases hunnamed with
  | some h => exact .some h
  | none => exact hnamed

/-- The dialect is the same in both sources, if the same flags are set. -/
lemma dialectOf_rel (marks : Annotations) (name : Text) {R : Argument → Argument → Prop}
    (hname : ∀ {a a'}, R a a' → a'.name = a.name)
    (hflag : ∀ {a a'}, R a a' → a.name = some "nativeQuery".toList →
      (trim a'.source = "true".toList ↔ trim a.source = "true".toList))
    (h : List.Forall₂ R arguments arguments') :
    dialectOf marks name arguments' = dialectOf marks name arguments := by
  have hany : (arguments'.any fun a =>
      a.name == some "nativeQuery".toList && trim a.source == "true".toList) =
        arguments.any fun a =>
          a.name == some "nativeQuery".toList && trim a.source == "true".toList := by
    induction h with
    | nil => rfl
    | @cons a a' arguments arguments' ha h ih =>
      rw [List.any_cons, List.any_cons, ih, hname ha]
      congr 1
      by_cases hnative : a.name = some "nativeQuery".toList
      · rw [Bool.eq_iff_iff, Bool.and_eq_true, Bool.and_eq_true, beq_iff_eq, beq_iff_eq, beq_iff_eq,
          hflag ha hnative]
      · rw [beq_false_of_ne hnative, Bool.false_and, Bool.false_and]
  rw [dialectOf, dialectOf, hany]

lemma candidateOf_kin {a a' : Argument} (name : Text) (dialect : Sql.Dialect)
    (h : a.Kin buffer language a') :
    Candidate.Kin
      (candidateOf buffer name dialect a (fragmentsFrom buffer language a.stop a.value))
      (candidateOf buffer name dialect a' (fragmentsFrom buffer language a'.stop a'.value)) := by
  cases hread : fragmentsFrom buffer language a.stop a.value with
  | ok fs =>
    obtain ⟨fs', hfs'⟩ := h.1.fragments ⟨fs, hread⟩
    rw [hfs']
    exact ⟨rfl, rfl⟩
  | error obstacle =>
    cases hread' : fragmentsFrom buffer language a'.stop a'.value with
    | ok fs' =>
      obtain ⟨fs, hfs⟩ := h.2.fragments ⟨fs', hread'⟩
      cases hread.symm.trans hfs
    | error obstacle' => exact trivial

end

namespace Abreast

variable {buffer : Nat} {language : Language} {ps ps₁ : List Part} {c c' d d' : Cursor}

/-- **What an annotation holds** is of a kind in both sources, and the scan goes on behind it at
corresponding places. -/
lemma readMark (marks : Annotations) (name : Text) (sign sign' : Cursor)
    (h : Abreast language ps c c') :
    (∃ ps₁, Goes ps c c' ps₁ (readMark buffer language marks name sign c).2
        (Host.readMark buffer language marks name sign' c').2) ∧
      Candidate.Kin (Host.readMark buffer language marks name sign c).1
        (Host.readMark buffer language marks name sign' c').1 := by
  obtain ⟨ps₁, hskip, -, -⟩ := h.skipTrivia
  have hopening := hskip.abreast h
  have hhead : (c'.skipTrivia language).rest.head? = (c.skipTrivia language).rest.head? := by
    rw [hopening.left, hopening.right, hopening.sound.head?]
  unfold Host.readMark
  simp only [hhead]
  by_cases hparen : (c.skipTrivia language).rest.head? = some '('
  · simp only [hparen, ne_eq, not_true_eq_false, if_false]
    obtain ⟨t, hrest⟩ := List.head?_eq_some_iff.1 hparen
    obtain ⟨ps₂, hone⟩ := hopening.goes_one hrest (by decide)
    have hinside := hone.abreast hopening
    have hapart : ((c.skipTrivia language).advance 1).IsApart :=
      Cursor.isApart_advance_one hrest (by decide +kernel)
    cases harguments : Host.argumentsFrom language 0 ((c.skipTrivia language).advance 1)
        ((c.skipTrivia language).advance 1) with
    | none =>
      cases harguments' : Host.argumentsFrom language 0 ((c'.skipTrivia language).advance 1)
          ((c'.skipTrivia language).advance 1) with
      | none => exact ⟨⟨ps, .refl ..⟩, trivial⟩
      | some read =>
        obtain ⟨_, _, _, hsome, -, -⟩ := hinside.flip.argumentsFrom buffer
          (hinside.isApart hapart) (.refl ..) harguments'
        cases harguments.symm.trans hsome
    | some read =>
      obtain ⟨arguments, stop⟩ := read
      obtain ⟨arguments', ps₃, stop', harguments', hstop, hkin⟩ :=
        hinside.argumentsFrom buffer hapart (.refl ..) harguments
      have hgoes := hskip.trans (hone.trans hstop)
      have hquery := queryArgument?_rel marks (fun ha => ha.1.name) hkin
      simp only [harguments']
      generalize queryArgument? marks arguments = query at hquery ⊢
      generalize queryArgument? marks arguments' = query' at hquery ⊢
      cases hquery with
      | none => exact ⟨⟨ps₃, hgoes⟩, trivial⟩
      | @some a a' ha =>
        rw [dialectOf_rel marks name (fun ha => ha.1.name)
          (fun ha _ => ⟨ha.2.flag, ha.1.flag⟩) hkin]
        exact ⟨⟨ps₃, hgoes⟩, candidateOf_kin name _ ha⟩
  · simp only [hparen, ne_eq, not_false_eq_true, if_true]
    exact ⟨⟨ps, .refl ..⟩, trivial⟩

/-- The name behind the sign of an annotation is the same in both sources. -/
lemma exists_behind_sign {x : Char} {v : Text} (h : Abreast language (.same x v :: ps) c c')
    (hx : x = '@') :
    ∃ n name ps₁, qualifiedLength (v ++ lefts ps) = n ∧ qualifiedLength (v ++ rights ps) = n ∧
      (v ++ lefts ps).take n = name ∧ (v ++ rights ps).take n = name ∧
      Goes (.same x v :: ps) c c' ps₁ (c.advance (n + 1)) (c'.advance (n + 1)) := by
  subst hx
  obtain ⟨rfl, hsound⟩ := h.sound.of_plain (by decide)
  have hname : Sound language true ps := hsound
  obtain ⟨u, hu⟩ := List.take_prefix (qualifiedLength (lefts ps)) (lefts ps)
  obtain ⟨js, ps₁, rfl, hl, hr, -⟩ := hname.exists_behind_letters hname.openSame
    (fun x hx => by
      rcases isIdent_of_mem_take_qualified x hx with rfl | hident
      · exact ⟨by decide, by decide +kernel⟩
      · exact isLetter_of_isIdent hident) hu.symm
  have hlength := hname.qualifiedLength_eq hname.openSame
  have hcount : (lefts js).length = qualifiedLength (lefts (js ++ ps₁)) := by
    rw [hl, List.length_take, min_eq_left (qualifiedLength_le _)]
  have htake : (rights (js ++ ps₁)).take (lefts js).length = lefts js := by
    rw [rights_append, hr, ← hl, List.take_left]
  refine ⟨_, lefts js, ps₁, rfl, hlength, hl.symm, hcount ▸ htake, .same '@' [] :: js, rfl, ?_, ?_⟩
  · simp [Part.left, hcount]
  · simp [Part.right, hr, hcount]

/-- **What the annotations hold** behind two places is of a kind in both sources.  The induction is
over the parts that are left: a scan goes on over a stride, or over all that an annotation holds,
and comes to stand abreast again. -/
theorem locateFrom (marks : Annotations) (h : Abreast language ps c c') :
    List.Forall₂ Candidate.Kin (locateFrom buffer language marks c)
      (Host.locateFrom buffer language marks c') := by
  induction hn : ps.length using Nat.strongRecOn generalizing ps c c' with
  | ind n ih =>
    subst hn
    match ps, h with
    | [], h =>
      rw [locateFrom_nil h.left, locateFrom_nil h.right]
      exact .nil
    | .swapped e e' :: ps, h =>
      obtain ⟨hfree, hfree', -, ⟨qs, he⟩, qs', he'⟩ := h.of_swapped
      rw [locateFrom_pass he h.left hfree.isFree, locateFrom_pass he' h.right hfree'.isFree]
      exact ih ps.length (by simp) (goes_swapped.abreast h) rfl
    | .same x v :: ps, h =>
      have hleft : c.rest = x :: (v ++ lefts ps) := h.left
      have hright : c'.rest = x :: (v ++ rights ps) := h.right
      obtain ⟨hsealed, ps', hgoes⟩ := h.exists_sealed
      -- every further step starts at a place that both scans come to
      have hstep : ∀ {ps₁ : List Part} {d d' : Cursor}, Goes (.same x v :: ps) c c' ps₁ d d' →
          d.rest.length < c.rest.length →
            List.Forall₂ Candidate.Kin (Host.locateFrom buffer language marks d)
              (Host.locateFrom buffer language marks d') := fun hd hlt =>
        ih _ (hd.length_lt hlt) (hd.abreast h) rfl
      have hshorter : ∀ n, (c.advance (n + 1)).rest.length < c.rest.length := fun n =>
        Cursor.advance_lt (Nat.succ_pos n) (by simp [hleft])
      rw [locateFrom_cons hleft, locateFrom_cons hright, hsealed]
      cases hread : sealedTail? language c.before x (v ++ lefts ps) with
      | some k =>
        simp only [hread, Option.getD_some] at hgoes ⊢
        exact hstep hgoes (hshorter k)
      | none =>
        simp only [hread, Option.getD_none, Nat.zero_add] at hgoes ⊢
        by_cases hx : x = '@'
        · obtain ⟨n, name, ps₁, hlength, hlength', hname, hname', hhead⟩ := h.exists_behind_sign hx
          simp only [hlength, hlength', hname, hname', h.word]
          split
          · split
            · obtain ⟨⟨ps₂, hread⟩, hkin⟩ :=
                (hhead.abreast h).readMark marks name c c'
              refine .cons hkin (hstep (hhead.trans hread) ?_)
              exact Nat.lt_of_le_of_lt (length_rest_of_readMark ..) (hshorter n)
            · exact hstep hhead (hshorter n)
          · exact hstep hgoes (hshorter 0)
        · simp only [hx, false_and, if_false]
          exact hstep hgoes (hshorter 0)

end Abreast

end SqlInlay.Host
