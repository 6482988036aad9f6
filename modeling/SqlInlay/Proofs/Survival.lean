import SqlInlay.Proofs.Host.Lockstep
import SqlInlay.Proofs.Reformat

/-!
# What formatting leaves of a source

Formatting rewrites literals, and the source around them is read as before: the annotations hold
what they held, literals or not, with the same names and dialects (`locate_formatSource`).  This is
not a matter of each literal by itself.  A scan of the source reads everything in front of an
annotation to know whether it stands in code, so a rewritten literal that closed too early, or ran
on, would change what every later annotation is.

**Strings left open.**  There is one way in which a literal reaches beyond itself.  A string that
never closes is passed to the end of its line, and whether it closes may depend on all the text
behind it.  A text block that is left open further up closes as soon as some literal becomes a text
block, and what lies between is swallowed (`locate_formatSource_swallowed`).  `StringsStayOpen` asks
that the edits do no such thing: at the place that each open string comes to, it is still open.  It
holds of every source whose strings are all closed (`StringsStayOpen.of_openStrings`), and it is a
matter of the edits that are made, not of all that could be.

The way there has three parts.

* **The same stride in other surroundings.**  `sameStride` says of one stride of a scan that it is
  the same in front of both texts if they go on with the same character and a string that is open in
  front of the one is open in front of the other.  `SameStrides.of_strides` puts strides together.
* **Corresponding places.**  `Facing` says what stands behind a place in both texts, by what is
  rewritten in front of it and what behind it, and `OpenFacing` that open strings stay open there.
  `StringsStayOpen.openFacing` is where the edits as they are carried out, cut down to what differs,
  meet the rewritings that they are cut from.
* **Parts.**  `Swapped.exists_parts` turns a source and its rewritings into the parts of two sources
  that are read abreast, from the last to the first; `Abreast.locateFrom` does the rest.
-/

namespace SqlInlay

open Text

namespace Host

/-! ## Strings left open -/

/-- **Strings stay open**: what a scan of the source finds left open is still open where the edits
are made.  The place behind `front` in the source is the place behind `front'` in the result, if
`front'` is what the edits in front of it make of `front`. -/
def StringsStayOpen (language : Language) (edits : List Edit) (source : Text) : Prop :=
  ∀ front u front' u' : Text, source = front ++ u → Strides language source u →
    quoted? language (some '_') u = some none →
    applyEdits (edits.filter (·.span.stop ≤ bytes front)) front = .ok front' →
    applyEdits edits source = .ok (front' ++ u') →
    quoted? language (some '_') u' = some none

/-- What stands behind the places where a scan of a text finds a string that it leaves open; `n`
bounds the strides of the scan. -/
def openStrings (language : Language) : Nat → Text → List Text
  | 0, _ => []
  | _ + 1, [] => []
  | n + 1, x :: t =>
    (if quoted? language (some '_') (x :: t) = some none then [x :: t] else []) ++
      openStrings language n (t.drop (strideTail language x t))

/-- A string that is left open is among them. -/
lemma mem_openStrings {language : Language} {n : Nat} {t u : Text} (hn : t.length ≤ n)
    (hu : Strides language t u) (hread : quoted? language (some '_') u = some none) :
    u ∈ openStrings language n t := by
  have hnil : quoted? language (some '_') [] = none := by cases language <;> rfl
  induction hu generalizing n with
  | refl t =>
    match n, t, hn, hread with
    | _, [], _, hread => cases hnil.symm.trans hread
    | n + 1, x :: t, _, hread => simp [openStrings, hread]
  | @step x t u _ ih =>
    obtain ⟨n, rfl⟩ := Nat.exists_eq_succ_of_ne_zero (Nat.ne_of_gt (Nat.zero_lt_of_lt hn))
    refine List.mem_append_right _ (ih ?_ hread)
    rw [List.length_drop]
    rw [List.length_cons] at hn
    omega

/-- Where every string is closed, none is left open. -/
lemma quoted?_ne_of_openStrings {language : Language} {n : Nat} {t u : Text} (hn : t.length ≤ n)
    (h : openStrings language n t = []) (hu : Strides language t u) :
    quoted? language (some '_') u ≠ some none := by
  intro hread
  have hmem := mem_openStrings hn hu hread
  rw [h] at hmem
  cases hmem

/-- Where every string is closed, none has to stay open. -/
lemma StringsStayOpen.of_openStrings {language : Language} {n : Nat} {source : Text}
    (hn : source.length ≤ n) (h : openStrings language n source = []) (edits : List Edit) :
    StringsStayOpen language edits source :=
  fun _ _ _ _ _ hu hread => absurd hread (quoted?_ne_of_openStrings hn h hu)

example (edits : List Edit) : StringsStayOpen .python edits
    "x = 'a'\n@Query(\"select 'a'\" ' from t')\ny = \"\"\"b\"\"\"\n" :=
  .of_openStrings (n := 51) (by decide) (by decide +kernel) edits

/-! ## Strides in other surroundings -/

/-- Whether a string starts at a character depends on nothing else. -/
lemma quoted?_none_congr {language : Language} {x : Char} {t : Text}
    (h : quoted? language (some '_') (x :: t) = none) (t' : Text) :
    quoted? language (some '_') (x :: t') = none := by
  rw [quoted?, markerOf_word, Option.map_eq_none_iff, List.length_nil, List.drop_zero] at h ⊢
  rw [Option.eq_none_iff_forall_ne_some]
  intro delimiter hdelimiter
  have hquote : x = '"' ∨ language = .python ∧ x = '\'' := by
    obtain ⟨⟨rest, hrest⟩, hquotes⟩ := delimiter?_cases hdelimiter
    simp only [List.mem_cons, List.not_mem_nil, or_false] at hquotes
    rcases hquotes with (rfl | rfl) | ⟨hpython, rfl | rfl⟩
    · exact .inl (List.cons.inj hrest).1.symm
    · exact .inl (List.cons.inj hrest).1.symm
    · exact .inr ⟨hpython, (List.cons.inj hrest).1.symm⟩
    · exact .inr ⟨hpython, (List.cons.inj hrest).1.symm⟩
  unfold delimiter? at h
  rcases hquote with rfl | ⟨rfl, rfl⟩
  · have hopens : opensWith ['"'] ('"' :: t) = true := opensWith_iff.2 ⟨t, rfl⟩
    split_ifs at h
    simp_all
  · have hopens : opensWith ['\''] ('\'' :: t) = true := opensWith_iff.2 ⟨t, rfl⟩
    split_ifs at h
    simp_all

/-- A stride is taken alike in front of the same character.  All that is read in a stride lies
within it, but for a comparison with the character behind it; only a string that is left open reads
on to the end of the text, and for that one it is assumed. -/
lemma sameStride {language : Language} {x : Char} {v r r' : Text}
    (hlength : strideTail language x (v ++ r) = v.length) (hhead : r.head? = r'.head?)
    (hopen : quoted? language (some '_') (x :: (v ++ r)) = some none →
      quoted? language (some '_') (x :: (v ++ r')) = some none) : SameStride language x v r r' := by
  have hheads : (v ++ r).head? = (v ++ r').head? := by cases v <;> first | exact hhead | rfl
  have hquoted : quoted? language (some '_') (x :: (v ++ r)) =
      quoted? language (some '_') (x :: (v ++ r')) := by
    cases hread : quoted? language (some '_') (x :: (v ++ r)) with
    | none => exact (quoted?_none_congr hread _).symm
    | some read =>
      cases read with
      | some q =>
        obtain ⟨y, w, hyw, -, htail⟩ := strideTail_of_quoted? hread
        obtain ⟨rfl, rfl⟩ := List.cons.inj hyw
        rw [hlength] at htail
        obtain ⟨rest, hrest⟩ := prefix_of_quoted? hread
        have hpos := length_source_pos hread
        have hsource : q.source = x :: v := by
          have hcount : q.source.length = (x :: v).length := by
            simp only [Option.map_some, Option.getD_some] at htail
            simp only [List.length_cons]
            omega
          exact (List.append_inj hrest hcount).1
        rw [← List.cons_append, ← hsource] at hread ⊢
        rw [quoted?_congr hread hhead]
      | none => exact (hopen hread).symm
  refine ⟨?_, hquoted, ?_, hlength⟩
  · cases hcomment : commentTail? language x (v ++ r) with
    | none => exact (commentTail?_none_congr hcomment hheads).symm
    | some k =>
      have hk : strideTail language x (v ++ r) = k := by simp [strideTail, sealedTail?, hcomment]
      rw [← hk, hlength] at hcomment ⊢
      exact (commentTail?_congr hcomment hhead).symm
  · cases hsealed : sealedTail? language (some '_') x (v ++ r) with
    | some k =>
      have hk : k = v.length := by simpa [strideTail, hsealed] using hlength
      rw [hk] at hsealed ⊢
      exact (sealedTail?_congr hsealed hhead fun hnone => hquoted ▸ hnone).symm
    | none =>
      obtain ⟨hcomment, hliteral⟩ : commentTail? language x (v ++ r) = none ∧
          literalTail? language (some '_') x (v ++ r) = none := by
        simpa [sealedTail?] using hsealed
      have hliteral' : literalTail? language (some '_') x (v ++ r') = none := by
        unfold literalTail? at hliteral ⊢
        rw [← hquoted]
        split at hliteral
        · cases hliteral
        · cases hliteral
        · rename_i hnone
          split at hliteral
          · cases hliteral
          · rename_i happos
            simp only [happos, if_false]
      simp [sealedTail?, commentTail?_none_congr hcomment hheads, hliteral']

/-- The strides over a text are the same in front of both.  The text is divided where the strides
end. -/
inductive SameStrides (language : Language) (r r' : Text) : Text → Prop
  | nil : SameStrides language r r' []
  | cons {x : Char} {v w : Text} (hx : SameStride language x v (w ++ r) (w ++ r'))
      (hw : SameStrides language r r' w) : SameStrides language r r' (x :: (v ++ w))

/-- The first of the strides up to a place.  It cannot go beyond that place, since the strides
behind it have to come there yet. -/
lemma Strides.exists_first {language : Language} {x : Char} {u r : Text}
    (h : Strides language (x :: (u ++ r)) r) :
    ∃ v w, u = v ++ w ∧ strideTail language x (u ++ r) = v.length ∧
      Strides language (x :: (u ++ r)) (w ++ r) ∧ Strides language (w ++ r) r := by
  have hbehind : Strides language ((u ++ r).drop (strideTail language x (u ++ r))) r := by
    generalize ht : x :: (u ++ r) = t at h
    cases h with
    | refl =>
      have hlength := congrArg List.length ht
      simp only [List.length_cons, List.length_append] at hlength
      omega
    | step h =>
      obtain ⟨rfl, rfl⟩ := List.cons.inj ht
      exact h
  have hle : strideTail language x (u ++ r) ≤ u.length := by
    have hshort := hbehind.suffix.length_le
    have hlong := strideTail_le language x (u ++ r)
    simp only [List.length_drop, List.length_append] at hshort hlong
    omega
  obtain ⟨v, w, rfl, hv⟩ : ∃ v w, u = v ++ w ∧ v.length = strideTail language x (u ++ r) :=
    ⟨_, _, (List.take_append_drop _ u).symm, List.length_take_of_le hle⟩
  have hdrop : (v ++ w ++ r).drop (strideTail language x (v ++ w ++ r)) = w ++ r := by
    rw [← hv, List.append_assoc, List.drop_left]
  exact ⟨v, w, rfl, hv.symm, .step (hdrop ▸ .refl _), hdrop ▸ hbehind⟩

/-- Strides up to a place are the same in front of the same character, if what is left open in the
one text is left open in the other. -/
lemma SameStrides.of_strides {language : Language} {s r r' : Text}
    (h : Strides language (s ++ r) r) (hhead : r.head? = r'.head?)
    (hopen : ∀ x u, Strides language (s ++ r) (x :: (u ++ r)) →
      quoted? language (some '_') (x :: (u ++ r)) = some none →
      quoted? language (some '_') (x :: (u ++ r')) = some none) : SameStrides language r r' s := by
  induction hn : s.length using Nat.strongRecOn generalizing s with
  | ind n ih =>
    subst hn
    cases s with
    | nil => exact .nil
    | cons x s =>
      obtain ⟨v, w, rfl, hv, hstep, hbehind⟩ := Strides.exists_first h
      have hheads : (w ++ r).head? = (w ++ r').head? := by cases w <;> first | exact hhead | rfl
      have hx : SameStride language x v (w ++ r) (w ++ r') := by
        refine sameStride (by rw [← List.append_assoc, hv]) hheads fun hread => ?_
        rw [← List.append_assoc] at hread ⊢
        exact hopen x (v ++ w) (.refl _) hread
      have hshorter : w.length < (x :: (v ++ w)).length := by
        rw [List.length_cons, List.length_append]; omega
      exact .cons hx (ih w.length hshorter hbehind (fun y u hu => hopen y u (hstep.trans hu)) rfl)

/-! ## Corresponding places -/

/-- What stands behind a place between the rewritings, in the text behind an offset and in what
becomes of it. -/
def Facing (offset : Nat) (rewritings : List Edit) (t t' u u' : Text) : Prop :=
  ∃ s s' done more, t = s ++ u ∧ t' = s' ++ u' ∧ rewritings = done ++ more ∧
    Splice offset s done s' ∧ ∀ r ∈ more, offset + bytes s < r.span.start

namespace Facing

variable {offset : Nat} {rewritings : List Edit} {r : Edit} {t t' u u' : Text}

/-- A place in what both texts have in front of the rewritings. -/
lemma here {s s' : Text} (hne : s' ≠ [])
    (h : ∀ r ∈ rewritings, offset + bytes (s ++ s') ≤ r.span.start) :
    Facing offset rewritings (s ++ s' ++ t) (s ++ s' ++ t') (s' ++ t) (s' ++ t') := by
  refine ⟨s, s, [], rewritings, List.append_assoc .., List.append_assoc .., rfl, .nil,
    fun r hr => ?_⟩
  have hle := h r hr
  have hpos := bytes_pos hne
  rw [bytes_append] at hle
  omega

/-- A place behind what both texts have in front. -/
lemma skip {skipped : Text} (h : Facing (offset + bytes skipped) rewritings t t' u u') :
    Facing offset rewritings (skipped ++ t) (skipped ++ t') u u' := by
  obtain ⟨s, s', done, more, rfl, rfl, rfl, hdone, hmore⟩ := h
  refine ⟨skipped ++ s, skipped ++ s', done, more, by simp, by simp, rfl, hdone.skip, ?_⟩
  rwa [bytes_append, ← Nat.add_assoc]

/-- A place behind a rewriting. -/
lemma behind {gap covered : Text} (hstart : r.span.start = offset + bytes gap)
    (hstop : r.span.stop = r.span.start + bytes covered)
    (h : Facing r.span.stop rewritings t t' u u') :
    Facing offset (r :: rewritings) (gap ++ (covered ++ t)) (gap ++ (r.replacement ++ t')) u u' := by
  obtain ⟨s, s', done, more, rfl, rfl, rfl, hdone, hmore⟩ := h
  refine ⟨gap ++ (covered ++ s), gap ++ (r.replacement ++ s'), r :: done, more, by simp, by simp,
    rfl, .cons hstart hstop hdone, fun f hf => ?_⟩
  have hlt := hmore f hf
  simp only [bytes_append]
  omega

end Facing

/-- What is left open in the text behind an offset is open in what faces it.  Places are looked at
only where a scan comes to stand, and where something is left open. -/
def OpenFacing (language : Language) (offset : Nat) (rewritings : List Edit) (t t' : Text) : Prop :=
  ∀ u u', Facing offset rewritings t t' u u' → Strides language t u →
    quoted? language (some '_') u = some none → quoted? language (some '_') u' = some none

namespace OpenFacing

variable {language : Language} {offset : Nat} {rewritings : List Edit} {r : Edit} {t t' : Text}

/-- So it is behind what both texts have in front. -/
lemma skip {skipped : Text}
    (h : OpenFacing language offset rewritings (skipped ++ t) (skipped ++ t'))
    (hskipped : Strides language (skipped ++ t) t) :
    OpenFacing language (offset + bytes skipped) rewritings t t' :=
  fun u u' hfacing hu => h u u' hfacing.skip (hskipped.trans hu)

/-- So it is behind a rewriting. -/
lemma behind {gap covered : Text} (hstart : r.span.start = offset + bytes gap)
    (hstop : r.span.stop = r.span.start + bytes covered)
    (h : OpenFacing language offset (r :: rewritings) (gap ++ (covered ++ t))
      (gap ++ (r.replacement ++ t')))
    (hcovered : Strides language (gap ++ (covered ++ t)) t) :
    OpenFacing language r.span.stop rewritings t t' :=
  fun u u' hfacing hu => h u u' (hfacing.behind hstart hstop) (hcovered.trans hu)

end OpenFacing

/-- Strings that stay open in a source are open in what faces them. -/
lemma StringsStayOpen.openFacing {language : Language} {rewritings edits : List Edit}
    {source out : Text} (h : StringsStayOpen language edits source)
    (hsplice : Splice 0 source rewritings out)
    (hedits : edits = rewritings.filterMap fun r => Edit.between? source r.span r.replacement) :
    OpenFacing language 0 rewritings source out := by
  intro u u' hfacing hu hread
  subst hedits
  obtain ⟨front, front', done, more, rfl, rfl, rfl, hdone, hmore⟩ := hfacing
  refine h front u front' u' rfl hu hread ?_ (hsplice.between []).applyEdits
  rw [hdone.filter_between hsplice fun r hr => by simpa using hmore r hr]
  exact (hdone.between []).applyEdits

/-! ## Parts of swapped sources -/

/-- A scan comes to the end of the text. -/
lemma strides_nil (language : Language) (t : Text) : Strides language t [] := by
  induction hn : t.length using Nat.strongRecOn generalizing t with
  | ind n ih =>
    subst hn
    cases t with
    | nil => exact .refl []
    | cons x t =>
      refine .step (ih _ ?_ _ rfl)
      simp only [List.length_drop, List.length_cons]
      omega

/-- Strides that are the same in both sources are parts of them. -/
lemma SameStrides.exists_parts {language : Language} {leads : Bool} {s : Text} {ps : List Part}
    (h : SameStrides language (lefts ps) (rights ps) s)
    (hps : Sound language (lastly leadsOn leads s) ps) :
    ∃ js, lefts js = s ∧ rights js = s ∧ Sound language leads (js ++ ps) := by
  induction h generalizing leads with
  | nil => exact ⟨[], rfl, rfl, hps⟩
  | @cons x v w hx _ ih =>
    rw [← List.cons_append, lastly_append] at hps
    obtain ⟨js, hl, hr, hsound⟩ := ih hps
    have hstride : SameStride language x v (lefts (js ++ ps)) (rights (js ++ ps)) := by
      rw [lefts_append, rights_append, hl, hr]
      exact hx
    exact ⟨.same x v :: js, by simp [Part.left, hl], by simp [Part.right, hr],
      .same hstride hsound⟩

/-- Strides up to the rewritings are parts that are the same in both sources. -/
lemma exists_parts {language : Language} {offset : Nat} {rewritings : List Edit} (leads : Bool)
    (s : Text) {ps : List Part} (h : Strides language (s ++ lefts ps) (lefts ps))
    (hbehind : ∀ r ∈ rewritings, offset + bytes s ≤ r.span.start)
    (hopen : OpenFacing language offset rewritings (s ++ lefts ps) (s ++ rights ps))
    (hps : Sound language (lastly leadsOn leads s) ps) :
    ∃ js, lefts js = s ∧ rights js = s ∧ Sound language leads (js ++ ps) := by
  refine (SameStrides.of_strides h hps.head? fun x u hu hread => ?_).exists_parts hps
  obtain ⟨front, hfront⟩ := hu.suffix
  obtain rfl : s = front ++ x :: u := List.append_cancel_right (by simpa using hfront.symm)
  exact hopen _ _ (.here (List.cons_ne_nil x u) hbehind) hu hread

/-- Parts in front of which an expression is swapped, with what is passed in front of it and behind
it.  They are put together from the last to the first. -/
lemma Sound.exists_swap {language : Language} {offset : Nat} {r : Edit} {rewritings : List Edit}
    {gap e closing : Text} {qs qs' : List Quoted} {ps : List Part}
    (hstart : r.span.start = offset + bytes gap) (hstop : r.span.stop = r.span.start + bytes e)
    (hgap : Strides language (gap ++ (e ++ (closing ++ lefts ps))) (e ++ (closing ++ lefts ps)))
    (hapart : ∃ y ∈ gap.getLast?, leadsOn y = false)
    (he : Expression language (closing ++ lefts ps) e qs)
    (he' : Expression language (closing ++ rights ps) r.replacement qs')
    (hhead : e.head? = r.replacement.head?) (hend : EndsText language (closing ++ lefts ps))
    (hend' : EndsText language (closing ++ rights ps))
    (hclosing : Strides language (closing ++ lefts ps) (lefts ps))
    (hnext : ∀ f ∈ rewritings, r.span.stop + bytes closing ≤ f.span.start)
    (hopen : OpenFacing language offset (r :: rewritings) (gap ++ (e ++ (closing ++ lefts ps)))
      (gap ++ (r.replacement ++ (closing ++ rights ps))))
    (hps : Sound language (Host.lastly leadsOn false closing) ps) (leads : Bool) :
    ∃ js, lefts js = gap ++ (e ++ (closing ++ lefts ps)) ∧
      rights js = gap ++ (r.replacement ++ (closing ++ rights ps)) ∧ Sound language leads js := by
  have hopen' := hopen.behind hstart hstop (hgap.trans he.strides)
  obtain ⟨js, rfl, hr, hjs⟩ := Host.exists_parts false closing hclosing hnext hopen' hps
  simp only [← lefts_append] at *
  have hright : lefts js ++ rights ps = rights (js ++ ps) := by rw [rights_append, hr]
  rw [hright] at he' hend' hopen ⊢
  have hswapped : Sound language false (.swapped e r.replacement :: (js ++ ps)) :=
    .swapped he he' hhead hend hend' hjs
  have hlast : Host.lastly leadsOn leads gap = false := by
    obtain ⟨y, hy, hleads⟩ := hapart
    rw [Host.lastly, Option.mem_def.1 hy]
    exact hleads
  have hbehind : ∀ f ∈ r :: rewritings, offset + bytes gap ≤ f.span.start := by
    refine List.forall_mem_cons.2 ⟨hstart.ge, fun f hf => ?_⟩
    have hle := hnext f hf
    omega
  rw [← hlast] at hswapped
  obtain ⟨ks, hl', hr', hks⟩ := Host.exists_parts leads gap hgap hbehind hopen hswapped
  exact ⟨_, by simp [hl', Part.left], by simp [hr', Part.right], hks⟩

/-- **Swapped sources are read abreast**, if what is left open in the one is so in the other.  The
parts are the two sources, cut where expressions are swapped and where both have the same text. -/
theorem Swapped.exists_parts {language : Language} {offset : Nat} {rewritings : List Edit}
    {t t' : Text} (h : Swapped language offset rewritings t t')
    (hopen : OpenFacing language offset rewritings t t') (leads : Bool) :
    ∃ ps, lefts ps = t ∧ rights ps = t' ∧ Sound language leads ps := by
  induction h generalizing leads with
  | refl offset t =>
    have hopen' : OpenFacing language offset [] (t ++ lefts []) (t ++ rights []) := by
      simpa using hopen
    have hstrides : Strides language (t ++ lefts []) (lefts []) := by
      simpa using strides_nil language t
    obtain ⟨ps, hl, hr, hsound⟩ :=
      Host.exists_parts leads t hstrides (by simp) hopen' (.nil _)
    exact ⟨ps, hl, hr, by simpa using hsound⟩
  | @swap offset gap e blanks t t' x qs qs' r rewritings hstart hstop hgap hapart he he' hhead
      hblanks hx h ih =>
    have hblanks' : (trivia language (blanks ++ x :: t')).1 = blanks.length :=
      trivia_swap hx hblanks
    have hends : ∀ {t : Text}, (trivia language (blanks ++ x :: t)).1 = blanks.length →
        EndsText language (blanks ++ x :: t) := fun {t} h =>
      ⟨x, t, by rw [h, List.drop_left], hx⟩
    have hstride : Strides language (blanks ++ x :: t) t := by
      have htrivia := strides_trivia language (blanks ++ x :: t)
      rw [hblanks, List.drop_left] at htrivia
      exact htrivia.trans (strides_cons (by rcases hx with rfl | rfl <;> decide) t)
    have hnext : ∀ f ∈ rewritings, r.span.stop + bytes (blanks ++ [x]) ≤ f.span.start :=
      fun f hf => (h.splice.bounds f hf).1
    have hend := hends hblanks
    have hend' := hends hblanks'
    have hopen' := hopen.behind hstart hstop (hgap.trans he.strides)
    have hsplit : ∀ t : Text, blanks ++ x :: t = blanks ++ [x] ++ t := fun t => by simp
    rw [hsplit t] at hstride hend hgap he
    rw [hsplit t'] at hend' he'
    rw [hsplit t, hsplit t'] at hopen hopen'
    rw [hsplit t, hsplit t']
    obtain ⟨ps, rfl, rfl, hps⟩ := ih (hopen'.skip hstride) (lastly leadsOn false (blanks ++ [x]))
    exact Sound.exists_swap hstart hstop hgap hapart he he' hhead hend hend' hstride hnext hopen hps
      leads

/-! ## The annotations of a formatted source -/

end Host

/-- **The source around the literals survives**, if the strings that are left open in it stay so.
The edits can be carried out, and each annotation holds in the result what it held in the source, up
to what formatting makes of its literal. -/
theorem locate_formatSource (style : Style) (language : Host.Language) (marks : Host.Annotations)
    (buffer : Nat) (source : Text)
    (hopen : Host.StringsStayOpen language
      (formatSource style (.embedded language marks) buffer source).edits source) :
    ∃ out, applyEdits (formatSource style (.embedded language marks) buffer source).edits source =
        .ok out ∧
      List.Forall₂ Host.Candidate.Kin (Host.locate buffer language marks source)
        (Host.locate buffer language marks out) := by
  have hedits := edits_formatSource style (.embedded language marks) buffer source
  rw [← filterMap_edit?] at hedits
  obtain ⟨out, hswapped⟩ := exists_swapped_sites style language marks buffer source
  have hsplice := hswapped.splice
  refine ⟨out, by rw [hedits]; exact (hsplice.between []).applyEdits, ?_⟩
  obtain ⟨ps, rfl, rfl, hsound⟩ := hswapped.exists_parts (hopen.openFacing hsplice hedits) false
  exact Host.Abreast.locateFrom marks ⟨hsound, rfl, rfl, rfl, rfl⟩

/-- Behind a text block that is left open a literal is rewritten, which does not close it. -/
theorem locate_formatSource_behind_open_string :
    Host.StringsStayOpen .java
        (formatSource {} (.embedded .java {}) 0
          "String s = \"\"\";\n@Query(\"select a from t\")\n").edits
        "String s = \"\"\";\n@Query(\"select a from t\")\n" ∧
      ∃ out, applyEdits (formatSource {} (.embedded .java {}) 0
          "String s = \"\"\";\n@Query(\"select a from t\")\n").edits
            "String s = \"\"\";\n@Query(\"select a from t\")\n" = .ok out ∧
        List.Forall₂ Host.Candidate.Kin
          (Host.locate 0 .java {} "String s = \"\"\";\n@Query(\"select a from t\")\n")
          (Host.locate 0 .java {} out) := by
  have hleft : Host.openStrings .java 42 "String s = \"\"\";\n@Query(\"select a from t\")\n" =
      ["\"\"\";\n@Query(\"select a from t\")\n".toList] := by decide +kernel
  have hfront : applyEdits ((formatSource {} (.embedded .java {}) 0
      "String s = \"\"\";\n@Query(\"select a from t\")\n").edits.filter
        (·.span.stop ≤ bytes "String s = ".toList)) "String s = " = .ok "String s = " := by
    decide +kernel
  have hout : applyEdits (formatSource {} (.embedded .java {}) 0
      "String s = \"\"\";\n@Query(\"select a from t\")\n").edits
        "String s = \"\"\";\n@Query(\"select a from t\")\n" =
      .ok "String s = \"\"\";\n@Query(\"SELECT a\\nFROM t\")\n" := by decide +kernel
  have hopen : Host.StringsStayOpen .java (formatSource {} (.embedded .java {}) 0
      "String s = \"\"\";\n@Query(\"select a from t\")\n").edits
        "String s = \"\"\";\n@Query(\"select a from t\")\n" := by
    intro front u front' u' hsplit hu hread happlied hresult
    have hmem := Host.mem_openStrings (n := 42) (by decide) hu hread
    rw [hleft] at hmem
    obtain rfl := List.mem_singleton.1 hmem
    obtain rfl : front = "String s = ".toList := List.append_cancel_right hsplit.symm
    obtain rfl : front' = "String s = ".toList :=
      Except.ok.inj (happlied.symm.trans hfront)
    obtain rfl : u' = "\"\"\";\n@Query(\"SELECT a\\nFROM t\")\n".toList :=
      List.append_cancel_left (Except.ok.inj (hresult.symm.trans hout))
    decide +kernel
  exact ⟨hopen, locate_formatSource {} .java {} 0 _ hopen⟩

/-- A text block that is left open closes where a literal further down becomes a text block, and
swallows the annotation. -/
theorem locate_formatSource_swallowed :
    ¬ ∀ (style : Style) (language : Host.Language) (marks : Host.Annotations) (buffer : Nat)
      (source : Text), ∃ out,
        applyEdits (formatSource style (.embedded language marks) buffer source).edits source =
          .ok out ∧
        List.Forall₂ Host.Candidate.Kin (Host.locate buffer language marks source)
          (Host.locate buffer language marks out) := by
  intro h
  have hout : applyEdits (formatSource { promoteTextBlocks := true } (.embedded .java {}) 0
      "String s = \"\"\";\n@Query(\"select a from t\")\n").edits
        "String s = \"\"\";\n@Query(\"select a from t\")\n" =
      .ok "String s = \"\"\";\n@Query(\"\"\"\n    SELECT a\n    FROM t\n    \"\"\")\n" := by
    decide +kernel
  have hlost : Host.locate 0 .java {}
      "String s = \"\"\";\n@Query(\"\"\"\n    SELECT a\n    FROM t\n    \"\"\")\n" = [] := by
    decide +kernel
  have hfound : (Host.locate 0 .java {}
      "String s = \"\"\";\n@Query(\"select a from t\")\n").length = 1 := by decide +kernel
  obtain ⟨out, happlied, hkin⟩ := h { promoteTextBlocks := true } .java {} 0
    "String s = \"\"\";\n@Query(\"select a from t\")\n"
  obtain rfl := Except.ok.inj (hout.symm.trans happlied)
  rw [hlost, List.forall₂_nil_right_iff] at hkin
  rw [hkin] at hfound
  cases hfound

end SqlInlay
