import Mathlib.Data.Bool.AllAny
import SqlInlay.Proofs.Host.Seams

/-!
# Block comments in place of spaces

A block comment, set between two spaces, in place of one space does not change what the annotations
of a source hold (`locate_remark`), except in two places: between the name of an argument and its
equals sign (`SplitsName`), where the argument is taken for a positional one (`not_locate_remark`),
and behind the value of `nativeQuery = true` (`SplitsFlag`), where the flag is not seen.  In both
places the source is compared with a text that allows for white space, and a comment is none.

The source with the comment and the one without are the two sides of a `Seam`, and `Seam.Beside`
relates the places of scans over them.  The proof follows the definitions from the inside out, and
each of them is shown to give on both sides what corresponds.

* **Names.**  `Seam.Beside.name` reads the name of an annotation, `Seam.Beside.namedArgument?` that
  of an argument.  A name ends at a space, so the seam is never inside of one.
* **Strings.**  `Seam.Beside.fragmentsAt` finds the strings of an expression on both sides, with the
  same contents.
* **Arguments.**  The scans of both sources divide the argument lists at corresponding places
  (`Seam.Beside.argumentsFrom`), whatever the seam splits.  Only what is made of an argument between
  two places, its name and its flag, depends on the text between them (`Seam.Beside.readAt_recurs`).
* **Annotations.**  `Seam.Matched.alike` puts this together for the arguments of an annotation that
  the seam spares (`Seam.Spares`), and `Seam.Beside.locateFrom` goes over all annotations.
-/

namespace SqlInlay.Host

open SqlInlay.Text

/-! ## Names -/

/-- An identifier ends at a space, whatever follows. -/
lemma exists_identLength (p : Text) : ∃ n ≤ p.length, ∀ a, identLength (p ++ ' ' :: a) = n := by
  cases p with
  | nil =>
    have hspace : isIdentStart ' ' = false := by decide
    exact ⟨0, le_rfl, fun a => by simp [identLength, hspace]⟩
  | cons x p =>
    have htake : ∀ a, (p ++ ' ' :: a).takeWhile isIdentChar = p.takeWhile isIdentChar := by
      intro a
      rw [List.takeWhile_append, List.takeWhile_cons_of_neg (by decide), List.append_nil]
      split
      · rename_i hall
        exact ((List.takeWhile_prefix _).eq_of_length hall).symm
      · rfl
    refine ⟨identLength (x :: p), identLength_le _, fun a => ?_⟩
    rw [List.cons_append, identLength, identLength, htake]

/-- So does a dotted name. -/
lemma exists_qualifiedLength (p : Text) :
    ∃ n, ∀ a, qualifiedLength (p ++ ' ' :: a) = n := by
  induction hn : p.length using Nat.strongRecOn generalizing p with
  | ind n ih =>
    subst hn
    obtain ⟨n, hle, hident⟩ := exists_identLength p
    obtain ⟨name, u, rfl, rfl⟩ : ∃ name u, p = name ++ u ∧ name.length = n :=
      ⟨_, _, (List.take_append_drop n p).symm, List.length_take_of_le hle⟩
    simp only [List.append_assoc] at hident ⊢
    match u with
    | [] => exact ⟨_, fun a => qualifiedLength_append (hident a) (by simp)⟩
    | y :: u =>
      by_cases hdot : y = '.'
      · subst hdot
        obtain ⟨k, -, hk⟩ := exists_identLength u
        obtain ⟨m, hm⟩ := ih u.length (by simp; omega) u rfl
        refine ⟨if name.length > 0 ∧ k > 0 then name.length + 1 + m else name.length, fun a => ?_⟩
        have hdotted : identLength (name ++ '.' :: (u ++ ' ' :: a)) = name.length := hident a
        rw [List.cons_append, qualifiedLength_dot hdotted, hk, hm]
      · exact ⟨_, fun a => qualifiedLength_append (hident a) (by simpa using hdot)⟩

namespace Seam

variable {language : Language} {S : Seam language}

namespace Beside

variable {c c' d d' s s' : Cursor}

/-- **The name** behind the sign of an annotation is the same in both sources.  The seam stands in
front of the sign or behind the name: a gap starts with a character that no name goes on with. -/
lemma name (h : S.Beside c c') {t t' : Text} (hc : c.rest = '@' :: t) (hc' : c'.rest = '@' :: t') :
    qualifiedLength t' = qualifiedLength t ∧
      t'.take (qualifiedLength t) = t.take (qualifiedLength t) ∧
      S.Beside (c.advance (qualifiedLength t + 1)) (c'.advance (qualifiedLength t + 1)) := by
  have hlength : qualifiedLength t' = qualifiedLength t := by
    obtain ⟨g, hg⟩ := S.gap.exists_cons
    obtain ⟨g', hg'⟩ := S.gap'.exists_cons
    cases h with
    | behind =>
      obtain rfl := (List.cons.inj (hc.symm.trans hc')).2
      rfl
    | @front u v =>
      simp only [hg, hg'] at hc hc'
      cases v with
      | nil => cases hc
      | cons x v =>
        obtain ⟨n, hn⟩ := exists_qualifiedLength v
        obtain rfl := (List.cons.inj hc).2
        obtain rfl := (List.cons.inj hc').2
        exact (hn _).trans (hn _).symm
  refine ⟨hlength, ?_⟩
  have hcount : (t.take (qualifiedLength t)).length = qualifiedLength t :=
    List.length_take_of_le (qualifiedLength_le t)
  have hrest : c.rest = ('@' :: t.take (qualifiedLength t)) ++ t.drop (qualifiedLength t) := by
    rw [hc, List.cons_append, List.take_append_drop]
  have hname : ∀ x ∈ t.take (qualifiedLength t), x ∉ "\"'#/ ".toList := by
    intro x hx hmem
    have hsigns : ∀ y ∈ "\"'#/ ".toList,
        y ≠ '.' ∧ isIdentStart y ≠ true ∧ isIdentChar y ≠ true :=
      List.all_iff_forall_prop.1 (by decide)
    obtain ⟨hdot, hstart, hchar⟩ := hsigns x hmem
    exact (isIdent_of_mem_take_qualified x hx).elim hdot fun hident => hident.elim hstart hchar
  obtain ⟨u, hu, hnext⟩ := h.signs hrest (List.forall_mem_cons.2 ⟨by decide, hname⟩)
  rw [List.length_cons, hcount] at hnext
  have hbehind : t' = t.take (qualifiedLength t) ++ u := (List.cons.inj (hc'.symm.trans hu)).2
  refine ⟨?_, hnext⟩
  conv_lhs => rw [hbehind]
  exact List.take_left' hcount

/-- **A named argument** is one in both sources, unless the seam lies between its name and the
equals sign. -/
lemma namedArgument? (h : S.Beside s s') {name : Text} {n : Nat}
    (hname : namedArgument? s.rest = some (name, n))
    (hsplit : ¬(s.offset ≤ bytes S.front ∧ bytes S.front < (s.advance n).offset)) :
    namedArgument? s'.rest = some (name, n) ∧ S.Beside (s.advance n) (s'.advance n) := by
  obtain ⟨p, u, hrest, rfl, -, hnamed, hsame⟩ := exists_of_namedArgument? hname
  have hoffset := (Cursor.advance_append hrest).2
  obtain ⟨u', hu', hhead, hnext⟩ := h.plain hrest (fun x hx => not_mem_of_named (hnamed x hx))
    fun p₁ p₂ hp hseam => by
      rw [hp, bytes_append] at hoffset
      have hpos := Text.bytes_pos (List.cons_ne_nil ' ' p₂)
      exact hsplit ⟨by omega, by rw [hp]; omega⟩
  exact ⟨by rw [hu', hsame u' hhead], hnext⟩

/-! ## Strings -/

/-- **A further string** is joined in both sources. -/
lemma joinerAt (h : S.Beside c c') {continued : Bool} {joiner : Joiner}
    (hjoiner : joinerAt language continued c = some (joiner, d)) :
    ∃ d', Host.joinerAt language continued c' = some (joiner, d') ∧ S.Beside d d' := by
  have hforeign := S.foreign
  unfold Host.joinerAt at hjoiner ⊢
  rw [h.head?]
  split at hjoiner
  · rename_i hplus
    obtain ⟨u, hu⟩ := List.head?_eq_some_iff.1 hplus
    obtain ⟨-, -, hnext⟩ := h.signs (p := ['+']) hu (List.forall_mem_singleton.2 (by decide))
    obtain ⟨rfl, rfl⟩ := Prod.mk.inj (Option.some.inj hjoiner)
    exact ⟨_, if_pos hplus, hnext.skipTrivia⟩
  · simp [hforeign] at hjoiner

end Beside

end Seam

/-- Two fragments, each of its own source, with the same content between the same quotes. -/
structure Fragment.Alike (source source' : Text) (f f' : Fragment) : Prop where
  content : f'.content.of source' = f.content.of source
  style : f'.style = f.style
  marker : f'.marker = f.marker
  delimiter : f'.delimiter = f.delimiter
  joiner : f'.joiner = f.joiner

namespace Seam

variable {buffer : Nat} {language : Language} {S : Seam language} {c c' d : Cursor}

/-- A string is a fragment alike in both sources. -/
lemma Beside.fragmentAt (h : S.Beside c c') {q : Quoted}
    (hq : quoted? language c.before c.rest = some (some q)) (joiner : Option Joiner) :
    Fragment.Alike S.source S.source'
      { fragmentAt buffer language c q with joiner := joiner }
      { fragmentAt buffer language c' q with joiner := joiner } := by
  obtain ⟨t, ht⟩ := prefix_of_quoted? hq
  obtain ⟨t', ht'⟩ := prefix_of_quoted? (h.quoted?_eq.trans hq)
  have hshows : ∀ {c : Cursor} {t : Text}, q.source ++ t = c.rest →
      Shows c.text language
        { Host.fragmentAt buffer language c q with joiner := joiner } q :=
    fun hrest => shows_fragmentAt hrest.symm joiner
  have hcontent := (hshows ht').content.trans (hshows ht).content.symm
  rw [h.text_left, h.text_right] at hcontent
  exact ⟨hcontent, rfl, rfl, rfl, rfl⟩

/-- **Fragments** of the one source have their like in the other. -/
lemma Beside.fragmentsAt (h : S.Beside c c') {fragments : List Fragment}
    (hd : FragmentsAt buffer language c fragments d) :
    ∃ fragments' d', FragmentsAt buffer language c' fragments' d' ∧ S.Beside d d' ∧
      List.Forall₂ (Fragment.Alike S.source S.source') fragments fragments' := by
  induction hd generalizing c' with
  | @last c q hq hplain =>
    exact ⟨_, _, .last (h.quoted?_eq.trans hq) hplain, h.string hq,
      .cons (h.fragmentAt hq none) .nil⟩
  | @cons c following d q continued joiner fragments hq hplain hjoiner hd ih =>
    obtain ⟨following', hjoiner', hnext⟩ := (h.string hq).skipTrivia.joinerAt hjoiner
    obtain ⟨fragments', d', hd', hlast, halike⟩ := ih hnext
    exact ⟨_, d', .cons (h.quoted?_eq.trans hq) hplain hjoiner' hd', hlast,
      .cons (h.fragmentAt hq (some joiner)) halike⟩

end Seam

/-! ## Arguments

What is read of an argument is its name, its value and where it stops.  The value stands at
corresponding places on both sides, but the source of the argument is the text between two of them,
and there the comment may have come in.  So the strings of an argument recur in any case, and its
source if the seam does not lie in it.
-/

/-- An argument as it is read from the place where it starts, behind white space and comments, to
the place where it ends. -/
structure Argument.StandsAt (language : Language) (s d : Cursor) (a : Argument) : Prop extends
    ArgumentAt language s d a where
  meets : s.Meets language d
  ends : d.EndsArgument
  apart : s.IsApart

/-- An argument as it is read from behind the parenthesis or the comma in front of it to the
parenthesis or the comma behind it. -/
structure Argument.ReadAt (language : Language) (start stop : Cursor) (a : Argument) : Prop where
  between : argumentBetween language start stop.offset = some a
  meets : start.Meets language stop
  ends : stop.EndsArgument
  apart : start.IsApart

namespace Argument

variable {language : Language} {s d start stop : Cursor} {a : Argument}

lemma ReadAt.standsAt (h : a.ReadAt language start stop) :
    a.StandsAt language (start.skipTrivia language) stop := by
  rcases argumentBetween_cases h.meets h.ends with ⟨hnone, -⟩ | ⟨b, hb, hlt, hat⟩
  · cases hnone.symm.trans h.between
  · obtain rfl := Option.some.inj (hb.symm.trans h.between)
    have hmeets := (start.meets_skipTrivia language).of_offset_le h.meets hlt.le
    exact ⟨hat, hmeets, h.ends, h.ends.isApart_skipTrivia h.apart hmeets⟩

namespace StandsAt

/-- The value stands behind the place, or there is none. -/
lemma reaches_value (h : a.StandsAt language s d) :
    s.Reaches a.value ∨ a.value.offset = a.stop := by
  rcases h.value with ⟨-, -, hvalue⟩ | ⟨name, n, -, -, ⟨hvalue, -⟩ | ⟨-, hstop⟩⟩
  · exact .inl (hvalue ▸ .refl s)
  · exact .inl (hvalue ▸ (s.reaches_advance n).trans (Cursor.reaches_skipTrivia _ language))
  · exact .inr hstop

/-- The strings up to the place where an argument ends are what is read as its value. -/
lemma fragmentsFrom_eq {buffer : Nat} (h : a.StandsAt language s d)
    (hlanguage : language ≠ .python) (hvalue : s.Reaches a.value) {fragments : List Fragment}
    {last : Cursor} (hlast : FragmentsAt buffer language a.value fragments last)
    (hskip : last.skipTrivia language = d) :
    fragmentsFrom buffer language a.stop a.value = .ok fragments := by
  obtain ⟨fs, hfs, hsame⟩ := h.exists_fragmentsFrom h.meets.1 hvalue hlast hskip
  rw [hfs, hsame hlanguage]

/-- What stands between the value and the place where the argument ends. -/
lemma exists_between (h : a.StandsAt language s d) (hvalue : s.Reaches a.value) :
    ∃ w, a.value.Reaches d ∧ a.value.rest = w ++ d.rest ∧ trim a.source = trim w := by
  have hreach := hvalue.of_offset_le h.meets.1 (h.le.trans (h.stop_le h.meets.1))
  obtain ⟨w, hw, -⟩ := hreach.exists_between
  exact ⟨w, hreach, hw, h.trim_source hvalue hw⟩

end StandsAt

end Argument

/-- The offset lies between the name of the argument that starts at a place and its equals sign. -/
def SplitsName (language : Language) (offset : Nat) (start : Cursor) : Prop :=
  ∃ name n, namedArgument? (start.skipTrivia language).rest = some (name, n) ∧
    (start.skipTrivia language).offset ≤ offset ∧
      offset < ((start.skipTrivia language).advance n).offset

/-- The offset lies between the value of the flag for native queries, which is set, and the place
where the argument ends. -/
def SplitsFlag (offset : Nat) (stop : Cursor) (a : Argument) : Prop :=
  a.name = some "nativeQuery".toList ∧ trim a.source = "true".toList ∧
    a.value.offset ≤ offset ∧ offset < stop.offset

/-- What of an argument is the same in the other source: its name, whether it makes the query
native, and the contents of its strings.  What stands between strings may differ. -/
structure Argument.Recurs (buffer : Nat) (language : Language) (source source' : Text)
    (a a' : Argument) : Prop where
  name : a'.name = a.name
  flag : a.name = some "nativeQuery".toList → trim a.source = "true".toList →
    trim a'.source = "true".toList
  fragments : ∀ fs, fragmentsFrom buffer language a.stop a.value = .ok fs →
    ∃ fs', fragmentsFrom buffer language a'.stop a'.value = .ok fs' ∧
      List.Forall₂ (Fragment.Alike source source') fs fs'

/-- An argument that holds nothing recurs as any of its name. -/
lemma Argument.recurs_of_stop {buffer : Nat} {language : Language} {source source' : Text}
    {a a' : Argument} (hname : a'.name = a.name) (hstop : a.value.offset = a.stop) :
    a.Recurs buffer language source source' a' := by
  refine ⟨hname, fun _ hflag => ?_, fun fs hfs => absurd hfs (Argument.ne_ok_of_stop hstop fs)⟩
  rw [Argument.source_of_stop hstop] at hflag
  cases hflag

namespace Seam

variable {buffer : Nat} {language : Language} {S : Seam language} {c c' d d' s s' : Cursor}
  {a a' : Argument}

namespace Beside

/-- What lies between two places is the same in both sources, if the seam does not lie there. -/
lemma between_eq (hc : S.Beside c c') (hd : S.Beside d d')
    (hseam : ¬(c.offset ≤ bytes S.front ∧ bytes S.front < d.offset)) {w w' : Text}
    (hw : c.rest = w ++ d.rest) (hw' : c'.rest = w' ++ d'.rest) : w' = w := by
  have hgap := S.gap.bytes_pos
  cases hc with
  | @front u v h =>
    cases hd with
    | front =>
      simp only [← List.append_assoc, List.append_left_inj] at hw hw'
      exact List.append_cancel_right (hw'.symm.trans hw)
    | behind =>
      have hfront := congrArg bytes h
      refine absurd ?_ hseam
      simp only [Cursor.offset, bytes_reverse, bytes_append] at *
      omega
  | behind h =>
    cases hd with
    | front =>
      have hrest := congrArg bytes h
      have hbehind := congrArg bytes hw
      simp only [bytes_append] at *
      omega
    | behind => exact List.append_cancel_right (hw'.symm.trans hw)

/-- An argument whose value stands at corresponding places. -/
lemma recurs (hvalue : S.Beside a.value a'.value) (hd : S.Beside d d')
    (ha : a.StandsAt language s d) (ha' : a'.StandsAt language s' d') (hname : a'.name = a.name)
    (hreach : s.Reaches a.value) (hreach' : s'.Reaches a'.value)
    (hflag : ¬SplitsFlag (bytes S.front) d a) :
    a.Recurs buffer language S.source S.source' a' := by
  refine ⟨hname, fun hnative htrue => ?_, fun fs hfs => ?_⟩
  · obtain ⟨w, -, hw, htrim⟩ := ha.exists_between hreach
    obtain ⟨w', -, hw', htrim'⟩ := ha'.exists_between hreach'
    have hsame := hvalue.between_eq hd (fun hseam => hflag ⟨hnative, htrue, hseam⟩) hw hw'
    rw [htrim', hsame, ← htrim, htrue]
  · obtain ⟨-, -, last, hlast, hskip⟩ := ha.toArgumentAt.ends ha.meets ha.apart ha.ends hfs
    obtain ⟨fs', last', hlast', hbehind, halike⟩ := hvalue.fragmentsAt hlast
    have hskip' := hbehind.skipTrivia.unique hd hskip
    exact ⟨fs', ha'.fragmentsFrom_eq S.foreign hreach' hlast' hskip', halike⟩

/-- **An argument** recurs in the other source, unless the seam splits it.  Whether it is named
shows in both sources alike unless a comment stands between its name and the sign of equality, which
is one way to split it; the other one is behind the value of a flag. -/
lemma readAt_recurs (hs : S.Beside s s') (hd : S.Beside d d') (ha : a.ReadAt language s d)
    (ha' : a'.ReadAt language s' d') (hname : ¬SplitsName language (bytes S.front) s)
    (hname' : ¬SplitsName language (bytes S.front) s') (hflag : ¬SplitsFlag (bytes S.front) d a) :
    a.Recurs buffer language S.source S.source' a' := by
  have hs := hs.skipTrivia
  have ha := ha.standsAt
  have ha' := ha'.standsAt
  rw [SplitsName] at hname hname'
  generalize s.skipTrivia language = s at *
  generalize s'.skipTrivia language = s' at *
  have hleft : ∀ {name : Text} {n : Nat}, Host.namedArgument? s.rest = some (name, n) →
      Host.namedArgument? s'.rest = some (name, n) ∧ S.Beside (s.advance n) (s'.advance n) :=
    fun hnamed => hs.namedArgument? hnamed fun hseam => hname ⟨_, _, hnamed, hseam⟩
  have hright : ∀ {name : Text} {n : Nat}, Host.namedArgument? s'.rest = some (name, n) →
      Host.namedArgument? s.rest = some (name, n) :=
    fun hnamed => (hs.flip.namedArgument? hnamed fun hseam => hname' ⟨_, _, hnamed, hseam⟩).1
  rcases ha.value with ⟨hnone, hunnamed, hvalue⟩ | ⟨name, n, hnamed, hname, hvalue⟩ <;>
    rcases ha'.value with ⟨hnone', hunnamed', hvalue'⟩ | ⟨name', n', hnamed', hname', hvalue'⟩
  · exact recurs (hvalue ▸ hvalue' ▸ hs) hd ha ha' (hunnamed'.trans hunnamed.symm)
      (hvalue ▸ .refl s) (hvalue' ▸ .refl s') hflag
  · cases hnone.symm.trans (hright hnamed')
  · cases hnone'.symm.trans (hleft hnamed).1
  · obtain ⟨hsame, hnext⟩ := hleft hnamed
    obtain ⟨rfl, rfl⟩ := Prod.mk.inj (Option.some.inj (hsame.symm.trans hnamed'))
    have hnames := hname'.trans hname.symm
    have hskip := hnext.skipTrivia
    have hreach : ∀ s : Cursor, s.Reaches ((s.advance n).skipTrivia language) := fun s =>
      (s.reaches_advance n).trans (Cursor.reaches_skipTrivia _ language)
    rcases hvalue with ⟨hvalue, hlt⟩ | ⟨-, hstop⟩
    · have hlt' := (hd.offset_lt_iff hskip).2 (hvalue ▸ hlt)
      rcases hvalue' with ⟨hvalue', -⟩ | ⟨hbehind', -⟩
      · exact recurs (hvalue ▸ hvalue' ▸ hskip) hd ha ha' hnames (hvalue ▸ hreach s)
          (hvalue' ▸ hreach s') hflag
      · omega
    · exact Argument.recurs_of_stop hnames hstop

end Beside

variable (S) in
/-- The two arguments are read at corresponding places, which are met from `base`. -/
def Matched (base : Cursor) (a a' : Argument) : Prop :=
  ∃ start stop start' stop', S.Beside start start' ∧ S.Beside stop stop' ∧
    base.Meets language start ∧ a.ReadAt language start stop ∧ a'.ReadAt language start' stop'

namespace Beside

variable {base : Cursor}

/-- What ends an argument ends it in both sources. -/
lemma endsArgument (h : S.Beside d d') (hend : d.EndsArgument) : d'.EndsArgument := by
  obtain ⟨x, u, hrest, hx⟩ := hend
  have hhead := h.head?
  rw [hrest] at hhead
  obtain ⟨u', hu'⟩ := List.head?_eq_some_iff.1 hhead
  exact ⟨x, u', hu', hx⟩

lemma isApart (h : S.Beside c c') (hapart : c.IsApart) : c'.IsApart := by
  rw [Cursor.IsApart, h.before]
  exact hapart

/-- **The argument** between two places is read in both sources, or there is none. -/
lemma argumentBetween (hs : S.Beside s s') (hd : S.Beside d d') (hbase : base.Meets language s)
    (hapart : s.IsApart) (hmeets : s.Meets language d) (hmeets' : s'.Meets language d')
    (hend : d.EndsArgument) :
    List.Forall₂ (S.Matched base) (argumentBetween language s d.offset).toList
      (Host.argumentBetween language s' d'.offset).toList := by
  have hend' := hd.endsArgument hend
  have hlt := hd.offset_lt_iff hs.skipTrivia
  have hgt := hs.skipTrivia.offset_lt_iff hd
  rcases argumentBetween_cases hmeets hend with ⟨hnone, hle⟩ | ⟨a, ha, hbefore, -⟩ <;>
    rcases argumentBetween_cases hmeets' hend' with ⟨hnone', hle'⟩ | ⟨a', ha', hbefore', -⟩
  · rw [hnone, hnone']
    exact .nil
  · omega
  · omega
  · rw [ha, ha']
    exact .cons ⟨s, d, s', d', hs, hd, hbase, ⟨ha, hmeets, hend, hapart⟩,
      ⟨ha', hmeets', hend', hs.isApart hapart⟩⟩ .nil

/-- **The arguments** up to the closing parenthesis are read at corresponding places.  The induction
is on what is unread of the first source.  At the seam the scans pass one gap each; behind a comma
both the start of an argument and the place that has been read to are new. -/
theorem argumentsFrom (depth : Nat) (hs : S.Beside s s') (hc : S.Beside c c')
    (hbase : base.Meets language s) (hapart : s.IsApart) (hmeets : s.Meets language c)
    (hmeets' : s'.Meets language c') :
    Option.Rel (fun read read' =>
        List.Forall₂ (S.Matched base) read.1 read'.1 ∧ S.Beside read.2 read'.2)
      (argumentsFrom language depth s c) (Host.argumentsFrom language depth s' c') := by
  induction hn : c.rest.length using Nat.strongRecOn generalizing depth s s' c c' with
  | ind n ih =>
    subst hn
    cases hc.ahead with
    | nil hrest hrest' =>
      rw [argumentsFrom_nil hrest, argumentsFrom_nil hrest']
      exact .none
    | gap hrest hrest' _ hnext =>
      rw [S.gap.argumentsFrom S.foreign hrest, S.gap'.argumentsFrom S.foreign hrest']
      obtain ⟨t, ht⟩ := S.gap.exists_cons
      exact ih _ (Cursor.advance_lt (by simp [ht]) (by simp [hrest, ht])) _ hs hnext hbase hapart
        (hmeets.trans (S.gap.meets S.foreign hrest))
        (hmeets'.trans (S.gap'.meets S.foreign hrest')) rfl
    | @stride x v r r' hrest hrest' hx hnext =>
      have hshorter : (c.advance (v.length + 1)).rest.length < c.rest.length :=
        Cursor.advance_lt (Nat.succ_pos _) (by simp [hrest])
      rw [argumentsFrom_cons hrest, argumentsFrom_cons hrest']
      rcases hx.sealed_cases S.foreign c.before c'.before with
        ⟨hread, hread'⟩ | ⟨hread, hread', rfl⟩
      · simp only [hread, hread']
        exact ih _ hshorter _ hs hnext hbase hapart (hmeets.trans (Cursor.meets_sealed hrest hread))
          (hmeets'.trans (Cursor.meets_sealed hrest' hread')) rfl
      · have hone := Cursor.meets_one hrest hread
        have hone' := Cursor.meets_one hrest' hread'
        simp only [hread, hread']
        cases hsign : argumentSign depth x with
        | inside depth' =>
          exact ih _ hshorter depth' hs hnext hbase hapart (hmeets.trans hone)
            (hmeets'.trans hone') rfl
        | close =>
          exact .some ⟨hs.argumentBetween hc hbase hapart hmeets hmeets'
            ⟨x, _, hrest, .inr (eq_of_argumentSign_close hsign)⟩, hnext⟩
        | comma =>
          have hx := eq_of_argumentSign_comma hsign
          have hstart : (c.advance 1).IsApart :=
            Cursor.isApart_advance_one hrest (by rw [hx]; decide +kernel)
          have hmore := ih _ hshorter depth hnext hnext
            (hbase.trans (hmeets.trans hone)) hstart (.refl _) (.refl _) rfl
          have hfirst := hs.argumentBetween hc hbase hapart hmeets hmeets'
            ⟨x, _, hrest, .inl hx⟩
          simp only [List.length_nil, Nat.zero_add] at hmore
          generalize Host.argumentsFrom language depth (c.advance 1) (c.advance 1) = read at hmore ⊢
          generalize Host.argumentsFrom language depth (c'.advance 1) (c'.advance 1) = read'
            at hmore ⊢
          cases hmore with
          | none => exact .none
          | some h => exact .some ⟨List.rel_append hfirst h.1, h.2⟩

end Beside

end Seam

/-! ## Places that a comment does not split

The conditions `SplitsName` and `SplitsFlag` speak of the places of scans.  For a space in front of
a sign that belongs to no name and ends no argument they cannot hold, whatever the scans do, and
that can be seen from the text alone (`IsAside`).
-/

/-- Between two places with the seam between them stands what follows the space there, or the second
place is right behind the space. -/
lemma Cursor.Reaches.exists_across {c d : Cursor} (h : c.Reaches d) {front t : Text} {x : Char}
    (htext : c.text = front ++ ' ' :: x :: t) (hle : c.offset ≤ bytes front)
    (hlt : bytes front < d.offset) :
    ∃ w, c.rest = w ++ d.rest ∧ (x ∈ w ∨ w.getLast? = some ' ' ∧ d.rest.head? = some x) := by
  rw [Cursor.offset, ← bytes_reverse] at hle
  obtain ⟨v, rfl, hv⟩ := prefix_of_bytes_le htext hle
  obtain ⟨w, hw, hoffset⟩ := h.exists_between
  rw [Cursor.offset, Cursor.offset, bytes_append, bytes_reverse] at *
  obtain ⟨m, rfl, hm⟩ := prefix_of_bytes_le (hv.symm.trans hw) (by omega)
  refine ⟨v ++ m, hw, ?_⟩
  rcases m with _ | ⟨y, _ | ⟨z, m⟩⟩
  · rw [List.append_nil] at hoffset
    omega
  · obtain ⟨rfl, hrest⟩ := List.cons.inj hm
    exact .inr ⟨List.getLast?_concat, congrArg List.head? hrest.symm⟩
  · obtain ⟨-, hrest⟩ := List.cons.inj hm
    obtain ⟨rfl, -⟩ := List.cons.inj hrest
    exact .inl (by simp)

/-- A character that belongs to no name and ends none, whatever stands between. -/
def IsAside (x : Char) : Prop :=
  isIdentStart x = false ∧ isIdentChar x = false ∧ isBlank x = false ∧ x ∉ "=,)".toList

/-- A space in front of such a character does not stand between a name and its equals sign. -/
lemma IsAside.not_splitsName {language : Language} {front t : Text} {x : Char} {start : Cursor}
    (hx : IsAside x) (htext : start.text = front ++ ' ' :: x :: t) :
    ¬SplitsName language (bytes front) start := by
  rintro ⟨name, n, hname, hle, hlt⟩
  rw [← ((start.reaches_skipTrivia language).text_eq)] at htext
  generalize start.skipTrivia language = s at *
  obtain ⟨p, u, hrest, rfl, hlast, hnamed, -⟩ := exists_of_namedArgument? hname
  obtain ⟨w, hw, hacross⟩ := (s.reaches_advance _).exists_across htext hle hlt
  rw [(Cursor.advance_append hrest).1] at hw
  obtain rfl := List.append_cancel_right (hrest.symm.trans hw)
  obtain ⟨hstart, hchar, hblank, hsign⟩ := hx
  rcases hacross with hmem | ⟨hspace, -⟩
  · rcases hnamed x hmem with (hletter | hletter) | hletter | rfl
    · cases hstart.symm.trans hletter
    · cases hchar.symm.trans hletter
    · cases hblank.symm.trans hletter
    · exact hsign (by decide)
  · exact absurd (hlast.symm.trans hspace) (by decide)

/-- Nor does it stand behind the value of a flag. -/
lemma IsAside.not_splitsFlag {language : Language} {front t : Text} {x : Char} {s d : Cursor}
    {a : Argument} (hx : IsAside x) (ha : a.StandsAt language s d)
    (htext : s.text = front ++ ' ' :: x :: t) : ¬SplitsFlag (bytes front) d a := by
  rintro ⟨-, htrue, hle, hlt⟩
  obtain ⟨-, hchar, hblank, hsign⟩ := hx
  have hvalue : s.Reaches a.value := ha.reaches_value.resolve_right fun hstop => by
    rw [Argument.source_of_stop hstop] at htrue
    cases htrue
  obtain ⟨w, hreach, hw, htrim⟩ := ha.exists_between hvalue
  obtain ⟨w', hw', hacross⟩ := hreach.exists_across (hvalue.text_eq.trans htext) hle hlt
  obtain rfl := List.append_cancel_right (hw.symm.trans hw')
  rcases hacross with hmem | ⟨-, hhead⟩
  · rcases isBlank_or_mem_trim hmem with hmem | hmem
    · exact absurd hmem (by simp [hblank])
    · rw [← htrim, htrue] at hmem
      have hletters : ∀ y ∈ "true".toList, isIdentChar y = true := List.all_eq_true.1 (by decide)
      exact absurd (hletters x hmem) (by simp [hchar])
  · obtain ⟨y, u, hrest, hy⟩ := ha.ends
    rw [hrest] at hhead
    obtain rfl := Option.some.inj hhead
    rcases hy with rfl | rfl <;> exact hsign (by decide)

lemma isAside_slash : IsAside '/' := by
  rw [IsAside]
  decide +kernel

/-! ## Annotations -/

/-- The two arguments recur as one another. -/
def Argument.Alike (buffer : Nat) (language : Language) (source source' : Text)
    (a a' : Argument) : Prop :=
  a.Recurs buffer language source source' a' ∧ a'.Recurs buffer language source' source a

/-- The two candidates are literals of the same annotation in the same dialect, with fragments that
are alike, or both no literals. -/
def Candidate.Alike (source source' : Text) : Candidate → Candidate → Prop
  | .literal l, .literal l' => l'.name = l.name ∧ l'.dialect = l.dialect ∧
      List.Forall₂ (Fragment.Alike source source') l.fragments l'.fragments
  | .skipped .., .skipped .. => True
  | _, _ => False

lemma candidateOf_alike {buffer : Nat} {language : Language} {source source' : Text}
    {a a' : Argument} (name : Text) (dialect : Sql.Dialect)
    (h : a.Alike buffer language source source' a') :
    Candidate.Alike source source'
      (candidateOf buffer name dialect a (fragmentsFrom buffer language a.stop a.value))
      (candidateOf buffer name dialect a' (fragmentsFrom buffer language a'.stop a'.value)) := by
  cases hread : fragmentsFrom buffer language a.stop a.value with
  | ok fs =>
    obtain ⟨fs', hfs', halike⟩ := h.1.fragments fs hread
    rw [hfs']
    exact ⟨rfl, rfl, halike⟩
  | error obstacle =>
    cases hread' : fragmentsFrom buffer language a'.stop a'.value with
    | ok fs' =>
      obtain ⟨fs, hfs, -⟩ := h.2.fragments fs' hread'
      cases hread.symm.trans hfs
    | error obstacle' => exact trivial

/-- The name of an annotation that is looked for ends at the place. -/
def IsHead (language : Language) (marks : Annotations) (source : Text) (head : Cursor) : Prop :=
  ∃ sign t, (Cursor.start source).Meets language sign ∧ sign.rest = '@' :: t ∧
    sign.before.any isHostWordChar = false ∧ 0 < qualifiedLength t ∧
    marks.recognizes (t.take (qualifiedLength t)) = true ∧
    head = sign.advance (qualifiedLength t + 1)

/-- An argument of the annotation whose name ends at `head`, with the places between which it is
read. -/
def Argument.IsOf (language : Language) (head start stop : Cursor) (a : Argument) : Prop :=
  let opening := head.skipTrivia language
  opening.rest.head? = some '(' ∧
    ∃ arguments close,
      argumentsFrom language 0 (opening.advance 1) (opening.advance 1) = some (arguments, close) ∧
      a ∈ arguments ∧ (opening.advance 1).Meets language start ∧ a.ReadAt language start stop

lemma IsHead.text_eq {language : Language} {marks : Annotations} {source : Text} {head : Cursor}
    (h : IsHead language marks source head) : head.text = source := by
  obtain ⟨sign, t, hmeets, -, -, -, -, rfl⟩ := h
  rw [Cursor.text_advance, hmeets.1.text_eq, Cursor.text_start]

lemma Argument.IsOf.text_eq {language : Language} {head start stop : Cursor} {a : Argument}
    (h : a.IsOf language head start stop) : start.text = head.text := by
  obtain ⟨-, -, -, -, -, hmeets, -⟩ := h
  rw [hmeets.1.text_eq, Cursor.text_advance, (head.reaches_skipTrivia language).text_eq]

namespace Seam

variable {buffer : Nat} {language : Language} {S : Seam language} {c c' : Cursor}

/-- Arguments at corresponding places recur as one another, unless the seam, which has a comment in
the other source, splits the one. -/
lemma Matched.alike {base : Cursor} {a a' : Argument} (h : S.Matched base a a') {t : Text}
    (hright : S.right = ' ' :: '/' :: t)
    (hspares : ∀ start stop, base.Meets language start → a.ReadAt language start stop →
      ¬SplitsName language (bytes S.front) start ∧ ¬SplitsFlag (bytes S.front) stop a) :
    a.Alike buffer language S.source S.source' a' := by
  obtain ⟨start, stop, start', stop', hs, hd, hmeets, ha, ha'⟩ := h
  obtain ⟨hname, hflag⟩ := hspares start stop hmeets ha
  have htext' : start'.text = S.front ++ ' ' :: '/' :: (t ++ S.back) := by
    rw [hs.text_right, source', hright]
    rfl
  have hname' : ¬SplitsName language (bytes S.front) start' :=
    isAside_slash.not_splitsName htext'
  have hflag' := isAside_slash.not_splitsFlag ha'.standsAt
    ((start'.reaches_skipTrivia language).text_eq.trans htext')
  exact ⟨hs.readAt_recurs hd ha ha' hname hname' hflag,
    hs.flip.readAt_recurs hd.flip ha' ha hname' hname hflag'⟩

variable (S) in
/-- The seam splits no argument of the annotation whose name ends at `head`: it neither comes
between a name and its sign nor behind the word that makes the query native. -/
def Spares (head : Cursor) : Prop :=
  ∀ start stop a, Argument.IsOf language head start stop a →
    ¬SplitsName language (bytes S.front) start ∧ ¬SplitsFlag (bytes S.front) stop a

namespace Beside

variable {t : Text}

variable (buffer) in
/-- **What an annotation holds** is alike in both sources, unless the seam splits its arguments.
The arguments are matched one by one, so the one that holds the query and those that decide on the
dialect are found at the same positions. -/
lemma readMark (marks : Annotations) (name : Text) (sign sign' : Cursor) (h : S.Beside c c')
    (hright : S.right = ' ' :: '/' :: t) (hspares : S.Spares c) :
    Candidate.Alike S.source S.source' (readMark buffer language marks name sign c).1
        (Host.readMark buffer language marks name sign' c').1 ∧
      S.Beside (Host.readMark buffer language marks name sign c).2
        (Host.readMark buffer language marks name sign' c').2 := by
  have hopening := h.skipTrivia
  unfold Host.readMark
  simp only [hopening.head?]
  by_cases hparen : (c.skipTrivia language).rest.head? = some '('
  · simp only [hparen, ne_eq, not_true_eq_false, if_false]
    obtain ⟨u, hrest⟩ := List.head?_eq_some_iff.1 hparen
    obtain ⟨-, -, hinside⟩ := hopening.signs (p := ['(']) hrest
      (List.forall_mem_singleton.2 (by decide))
    have hapart : ((c.skipTrivia language).advance 1).IsApart :=
      Cursor.isApart_advance_one hrest (by decide +kernel)
    have hread := hinside.argumentsFrom 0 hinside (.refl _) hapart (.refl _) (.refl _)
    simp only [List.length_singleton] at hread
    generalize hleft : Host.argumentsFrom language 0 ((c.skipTrivia language).advance 1)
      ((c.skipTrivia language).advance 1) = read at hread ⊢
    generalize Host.argumentsFrom language 0 ((c'.skipTrivia language).advance 1)
      ((c'.skipTrivia language).advance 1) = read' at hread ⊢
    cases hread with
    | none => exact ⟨trivial, h⟩
    | @some read read' hread =>
      obtain ⟨arguments, stop⟩ := read
      obtain ⟨arguments', stop'⟩ := read'
      obtain ⟨hmatched, hstop⟩ := hread
      have halike : List.Forall₂ (Argument.Alike buffer language S.source S.source')
          arguments arguments' := by
        have hmembers := (List.forall₂_and_left (p := (· ∈ arguments)) _ _).2
          ⟨fun _ => id, hmatched⟩
        exact hmembers.imp fun a a' ha => Matched.alike ha.2 hright fun start stop' hmeets hread =>
          hspares start stop' a ⟨hparen, arguments, stop, hleft, ha.1, hmeets, hread⟩
      have hquery := queryArgument?_rel marks (fun ha => ha.1.name) halike
      have hdialect := dialectOf_rel marks name (fun ha => ha.1.name)
        (fun ha hnative => ⟨ha.2.flag (ha.1.name.trans hnative), ha.1.flag hnative⟩) halike
      simp only [hdialect]
      generalize queryArgument? marks arguments = query at hquery ⊢
      generalize queryArgument? marks arguments' = query' at hquery ⊢
      cases hquery with
      | none => exact ⟨trivial, hstop⟩
      | some ha => exact ⟨candidateOf_alike name _ ha, hstop⟩
  · simp only [hparen, ne_eq, not_false_eq_true, if_true]
    exact ⟨trivial, h⟩

variable (buffer) in
/-- **What the annotations hold** behind two places is alike in both sources.  The induction is on
what is unread of the first source: at the seam the scans pass one gap each, and behind an
annotation they go on where it has been read to. -/
theorem locateFrom (marks : Annotations) (h : S.Beside c c') (hright : S.right = ' ' :: '/' :: t)
    (hspares : ∀ head, IsHead language marks S.source head → S.Spares head)
    (hmeets : (Cursor.start S.source).Meets language c) :
    List.Forall₂ (Candidate.Alike S.source S.source') (locateFrom buffer language marks c)
      (Host.locateFrom buffer language marks c') := by
  induction hn : c.rest.length using Nat.strongRecOn generalizing c c' with
  | ind n ih =>
    subst hn
    cases h.ahead with
    | nil hrest hrest' =>
      rw [locateFrom_nil hrest, locateFrom_nil hrest']
      exact .nil
    | gap hrest hrest' _ hnext =>
      rw [S.gap.locateFrom S.foreign hrest, S.gap'.locateFrom S.foreign hrest']
      obtain ⟨u, hu⟩ := S.gap.exists_cons
      exact ih _ (Cursor.advance_lt (by simp [hu]) (by simp [hrest, hu])) hnext
        (hmeets.trans (S.gap.meets S.foreign hrest)) rfl
    | @stride x v r r' hrest hrest' hx hnext =>
      have hshorter : ∀ n, (c.advance (n + 1)).rest.length < c.rest.length := fun n =>
        Cursor.advance_lt (Nat.succ_pos n) (by simp [hrest])
      rw [locateFrom_cons hrest, locateFrom_cons hrest']
      rcases hx.sealed_cases S.foreign c.before c'.before with
        ⟨hread, hread'⟩ | ⟨hread, hread', rfl⟩
      · simp only [hread, hread']
        exact ih _ (hshorter _) hnext (hmeets.trans (Cursor.meets_sealed hrest hread)) rfl
      · have hone := ih _ (hshorter 0) hnext (hmeets.trans (Cursor.meets_one hrest hread)) rfl
        simp only [hread, hread']
        by_cases hsign : x = '@'
        · subst hsign
          obtain ⟨hlength, htake, hhead⟩ := h.name hrest hrest'
          have hmeets' := hmeets.trans (Cursor.meets_name hrest rfl)
          simp only [List.nil_append] at hlength htake hhead hmeets' ⊢
          simp only [hlength, htake, h.before]
          split
          · rename_i hmark
            split
            · rename_i hknown
              obtain ⟨halike, hbehind⟩ := hhead.readMark buffer marks
                (r.take (qualifiedLength r)) c c' hright (hspares _
                  ⟨c, r, hmeets, hrest, by simpa using hmark.2.1, hmark.2.2, hknown, rfl⟩)
              refine .cons halike (ih _ ?_ hbehind (hmeets'.trans (meets_readMark ..).1) rfl)
              exact Nat.lt_of_le_of_lt (length_rest_of_readMark ..) (hshorter _)
            · exact ih _ (hshorter _) hhead hmeets' rfl
          · exact hone
        · simp only [hsign, false_and, if_false]
          exact hone

end Beside

end Seam

/-! ## Comments in place of spaces -/

/-- **A block comment in place of a space** changes nothing of what the annotations hold: neither
which of them hold literals, nor their dialects, nor what their fragments are.  The space stands
outside literals and comments, no string is left open in front of it that the comment closes, and
it stands neither between the name of an argument and the equals sign nor behind the value of
`nativeQuery = true`. -/
theorem locate_remark {language : Language} (hlanguage : language ≠ .python) (marks : Annotations)
    (buffer : Nat) {s body t : Text} (hbody : BlockRest (language == .kotlin) 1 body)
    (hspace : Strides language (s ++ ' ' :: t) (' ' :: t))
    (hopen : ∀ u, Strides language (s ++ ' ' :: t) (u ++ ' ' :: t) →
      quoted? language none (u ++ ' ' :: t) = some none →
      quoted? language none (u ++ ' ' :: ("/*".toList ++ (body ++ ' ' :: t))) = some none)
    (hsplit : ∀ head start stop a, IsHead language marks (s ++ ' ' :: t) head →
      Argument.IsOf language head start stop a →
      ¬SplitsName language (bytes s) start ∧ ¬SplitsFlag (bytes s) stop a) :
    List.Forall₂
      (Candidate.Alike (s ++ ' ' :: t) (s ++ ' ' :: ("/*".toList ++ (body ++ ' ' :: t))))
      (locate buffer language marks (s ++ ' ' :: t))
      (locate buffer language marks (s ++ ' ' :: ("/*".toList ++ (body ++ ' ' :: t)))) := by
  have hremark : ' ' :: '/' :: '*' :: (body ++ [' ']) ++ t =
      ' ' :: ("/*".toList ++ (body ++ ' ' :: t)) := by simp
  have hstrides : SameStrides language ([' '] ++ t)
      (' ' :: '/' :: '*' :: (body ++ [' ']) ++ t) s := by
    refine .of_strides hspace rfl fun x u hu hread => ?_
    rw [quoted?_any_before hlanguage _ none] at hread ⊢
    rw [hremark]
    exact hopen (x :: u) hu hread
  let S : Seam language :=
    { front := s, back := t, left := [' '], right := ' ' :: '/' :: '*' :: (body ++ [' ']),
      foreign := hlanguage, gap := .space, gap' := .remark hbody, strides := hstrides }
  have hsource : S.source = s ++ ' ' :: t := rfl
  have hsource' : S.source' = s ++ ' ' :: ("/*".toList ++ (body ++ ' ' :: t)) :=
    congrArg (s ++ ·) hremark
  have halike := S.beside_start.locateFrom buffer marks rfl
    (fun head hhead start stop a ha => hsplit head start stop a hhead ha) (.refl _)
  rw [hsource, hsource'] at halike
  exact halike

/-- In front of a sign that belongs to no name and ends no argument, a space splits nothing. -/
lemma IsAside.spares {language : Language} {marks : Annotations} {s t : Text} {x : Char}
    (hx : IsAside x) {head start stop : Cursor} {a : Argument}
    (hhead : IsHead language marks (s ++ ' ' :: x :: t) head)
    (ha : Argument.IsOf language head start stop a) :
    ¬SplitsName language (bytes s) start ∧ ¬SplitsFlag (bytes s) stop a := by
  have htext := ha.text_eq.trans hhead.text_eq
  obtain ⟨-, -, -, -, -, -, hread⟩ := ha
  exact ⟨hx.not_splitsName htext, hx.not_splitsFlag hread.standsAt
    ((start.reaches_skipTrivia language).text_eq.trans htext)⟩

/-- A comment between two strings of a native query. -/
theorem locate_remark_between_strings :
    List.Forall₂
      (Candidate.Alike "@Query(value = \"a\" + \"b\", nativeQuery = true)"
        "@Query(value = \"a\" /* and */ + \"b\", nativeQuery = true)")
      (locate 0 .java {} "@Query(value = \"a\" + \"b\", nativeQuery = true)")
      (locate 0 .java {} "@Query(value = \"a\" /* and */ + \"b\", nativeQuery = true)") := by
  have hbody : BlockRest (Language.java == .kotlin) 1 " and */" :=
    .char (by decide) (by decide) (.char (by decide) (by decide) (.char (by decide) (by decide)
      (.char (by decide) (by decide) (.char (by decide) (by decide) .close))))
  have hstring : quoted? .java none "\"a\" + \"b\", nativeQuery = true)" =
      some (some ⟨[], "\"", "a"⟩) := by
    decide +kernel
  have hspace : Strides .java "@Query(value = \"a\" + \"b\", nativeQuery = true)"
      " + \"b\", nativeQuery = true)" :=
    have hplain : ∀ x ∈ "@Query(value = ".toList, x ∉ "\"'#/".toList :=
      List.all_iff_forall_prop.1 (by decide)
    (strides_append hplain _).trans (strides_string hstring)
  have hclosed : openStrings .java 45 "@Query(value = \"a\" + \"b\", nativeQuery = true)" = [] := by
    decide +kernel
  have hplus : IsAside '+' := by
    rw [IsAside]
    decide +kernel
  exact locate_remark (s := "@Query(value = \"a\"".toList)
    (t := "+ \"b\", nativeQuery = true)".toList) (by decide) {} 0 hbody hspace
    (fun u hu hread => absurd hread (quoted?_ne_of_openStrings (by decide) hclosed hu))
    (fun _ _ _ _ hhead ha => hplus.spares hhead ha)

/-- The offset lies in the argument list of an annotation that is looked for, between its
parentheses. -/
def InArguments (language : Language) (marks : Annotations) (source : Text) (offset : Nat) : Prop :=
  ∃ head, IsHead language marks source head ∧
    let opening := head.skipTrivia language
    opening.rest.head? = some '(' ∧ opening.offset < offset ∧
      (argumentsFrom language 0 (opening.advance 1) (opening.advance 1)).any
        (fun read => offset < read.2.offset) = true

/-- A comment between the name of an argument and the equals sign makes it a positional one, which
is not a string. -/
theorem not_locate_remark :
    ¬∀ (language : Language) (marks : Annotations) (buffer : Nat) (s body t : Text),
      language ≠ .python → BlockRest (language == .kotlin) 1 body →
      Strides language (s ++ ' ' :: t) (' ' :: t) →
      InArguments language marks (s ++ ' ' :: t) (bytes s) →
      List.Forall₂
        (Candidate.Alike (s ++ ' ' :: t) (s ++ ' ' :: ("/*".toList ++ (body ++ ' ' :: t))))
        (locate buffer language marks (s ++ ' ' :: t))
        (locate buffer language marks (s ++ ' ' :: ("/*".toList ++ (body ++ ' ' :: t)))) := by
  intro h
  have hbody : BlockRest (Language.java == .kotlin) 1 " c */" :=
    .char (by decide) (by decide) (.char (by decide) (by decide)
      (.char (by decide) (by decide) .close))
  have hspace : Strides .java "@Query(value = \"a\")" " = \"a\")" :=
    strides_append (s := "@Query(value".toList) (List.all_iff_forall_prop.1 (by decide)) _
  have harguments : InArguments .java {} "@Query(value = \"a\")" 12 :=
    ⟨(Cursor.start "@Query(value = \"a\")").advance 6,
      ⟨.start "@Query(value = \"a\")", "Query(value = \"a\")", .refl _, rfl, rfl,
        by decide +kernel, by decide +kernel, by decide +kernel⟩,
      by decide +kernel, by decide +kernel, by decide +kernel⟩
  have hliteral : locate 0 .java {} "@Query(value = \"a\")" =
      [.literal ⟨"Query", ⟨0, 15, 18⟩, [⟨⟨0, 15, 18⟩, ⟨0, 16, 17⟩, .double, [], "\"", none⟩],
        .jpql⟩] := by decide +kernel
  have hskipped : locate 0 .java {} "@Query(value /* c */ = \"a\")" =
      [.skipped ⟨0, 7, 26⟩ (.notExtractable .notString)] := by decide +kernel
  have halike := h .java {} 0 "@Query(value" " c */" "= \"a\")" (by decide) hbody hspace harguments
  change List.Forall₂ _ (locate 0 .java {} "@Query(value = \"a\")")
    (locate 0 .java {} "@Query(value /* c */ = \"a\")") at halike
  rw [hliteral, hskipped] at halike
  cases halike with
  | cons hfalse _ => exact hfalse

-- behind the flag, a comment takes the query for another dialect
example :
    (literalsOf 0 .java {} "@Query(value = \"a\", nativeQuery = true )").map (·.dialect) =
        [.native] ∧
      (literalsOf 0 .java {} "@Query(value = \"a\", nativeQuery = true /* c */ )").map (·.dialect) =
        [.jpql] := by
  decide +kernel

-- behind a text block that is left open, quotes in a comment close it and swallow the annotation
example :
    (locate 0 .java {} "String s = \"\"\";\n@Query(\"a\" + \"b\")").length = 1 ∧
      locate 0 .java {} "String s = \"\"\";\n@Query(\"a\" /* \"\"\" */ + \"b\")" = [] := by
  decide +kernel

end SqlInlay.Host
