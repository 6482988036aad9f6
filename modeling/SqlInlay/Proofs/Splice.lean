import SqlInlay.Edit
import SqlInlay.Proofs.Text.Bytes

/-!
# What a batch of edits does to a text

`Splice` says how the edits of a batch change a text: from left to right, the text up to the next
span stays, and what the span covers gives way to the replacement.  It is a relation between the
text that starts at some offset and what becomes of it, so that an edit further right is none of its
business, and an induction over a batch has nothing to carry along but the offset.

**Spans.**  `Laid` says of spans that they are laid out in a text, each behind the former.  Edits of
such spans can be spliced, whatever their replacements are (`Laid.exists_splice`).

**Carrying a batch out.**  `applyEdits` works from right to left.  `Splice.applyEdits` says that it
gets there all the same: edits that can be spliced are in order (`Splice.sorted`), do not overlap
(`Splice.overlap?_eq_none`), and an edit leaves the text in front of it alone
(`Splice.foldr_apply`).

**Cutting edits down.**  An edit that is made is cut down to what differs from the source, at both
ends.  `Splice.between` says that edits cut down do the same as the edits that they were cut from,
and `Splice.filter_between` that the edits in front of a place are those of the rewritings in front
of it.
-/

namespace SqlInlay

open Text

/-- Spans that are laid out in a text which starts at an offset: each behind the former and with
something in front of it, all between characters of the text. -/
inductive Laid : Nat → Text → List Span → Prop
  | nil {offset : Nat} {t : Text} : Laid offset t []
  | cons {offset : Nat} {gap covered rest : Text} {s : Span} {spans : List Span}
      (hgap : gap ≠ []) (hstart : s.start = offset + bytes gap)
      (hstop : s.stop = s.start + bytes covered) (h : Laid s.stop rest spans) :
      Laid offset (gap ++ (covered ++ rest)) (s :: spans)

/-- The text behind an offset before and after some edits.  In front of each edit stands a gap that
both texts have; the edits are in order, for each starts behind the one before. -/
inductive Splice : Nat → Text → List Edit → Text → Prop
  | nil {offset : Nat} {t : Text} : Splice offset t [] t
  | cons {offset : Nat} {gap covered rest out : Text} {e : Edit} {edits : List Edit}
      (hstart : e.span.start = offset + bytes gap)
      (hstop : e.span.stop = e.span.start + bytes covered)
      (h : Splice e.span.stop rest edits out) :
      Splice offset (gap ++ (covered ++ rest)) (e :: edits) (gap ++ (e.replacement ++ out))

/-! ## Spans -/

/-- A span falls between characters of a text.  What it covers is known with it, and what stands
around that. -/
def Span.Cuts (s : Span) (t : Text) : Prop :=
  ∃ front covered back, t = front ++ (covered ++ back) ∧ s.start = bytes front ∧
    s.stop = s.start + bytes covered

/-- What a span covers does not depend on what follows it. -/
lemma Span.Cuts.of_append {s : Span} {t : Text} (h : s.Cuts t) (u : Text) :
    s.of (t ++ u) = s.of t := by
  obtain ⟨front, covered, back, rfl, hstart, hstop⟩ := h
  have hcovered : ∀ back, s.of (front ++ (covered ++ back)) = covered := fun back =>
    slice_bytes hstart (hstart ▸ hstop)
  rw [hcovered, List.append_assoc, List.append_assoc, hcovered]

lemma Span.Cuts.stop_le {s : Span} {t : Text} (h : s.Cuts t) : s.stop ≤ bytes t := by
  obtain ⟨front, covered, back, rfl, hstart, hstop⟩ := h
  simp only [bytes_append]
  omega

lemma Span.contains_iff {s t : Span} :
    s.contains t = true ↔ s.buffer = t.buffer ∧ s.start ≤ t.start ∧ t.stop ≤ s.stop := by
  simp [Span.contains, and_assoc]

namespace Laid

variable {offset : Nat} {t : Text} {spans : List Span}

/-- Spans may be laid out further right. -/
lemma skip {skipped : Text} (h : Laid (offset + bytes skipped) t spans) :
    Laid offset (skipped ++ t) spans := by
  generalize hk : offset + bytes skipped = k at h
  cases h with
  | nil => exact .nil
  | cons hgap hstart hstop h =>
    rw [← List.append_assoc]
    refine .cons (by simp [hgap]) ?_ hstop h
    rw [hstart, ← hk, bytes_append, Nat.add_assoc]

/-- Every span starts behind the offset and stops where it starts or later. -/
lemma bounds (h : Laid offset t spans) : ∀ s ∈ spans, offset < s.start ∧ s.start ≤ s.stop := by
  induction h with
  | nil => simp
  | @cons offset gap covered rest s spans hgap hstart hstop _ ih =>
    have := bytes_pos hgap
    intro r hr
    rcases List.mem_cons.1 hr with rfl | hr
    · omega
    · have := ih r hr
      omega

/-- Every span stops before the next one starts. -/
lemma pairwise (h : Laid offset t spans) : spans.Pairwise fun r s => r.stop < s.start := by
  induction h with
  | nil => exact .nil
  | cons _ _ _ h ih => exact List.pairwise_cons.2 ⟨fun r hr => (h.bounds r hr).1, ih⟩

/-- Some of the spans are laid out as all of them are. -/
lemma sublist {some : List Span} (h : Laid offset t spans) (hsome : some.Sublist spans) :
    Laid offset t some := by
  induction h generalizing some with
  | nil =>
    obtain rfl := List.sublist_nil.1 hsome
    exact .nil
  | @cons offset gap covered rest s spans hgap hstart hstop h ih =>
    rcases List.sublist_cons_iff.1 hsome with hsome | ⟨others, rfl, hothers⟩
    · rw [← List.append_assoc]
      refine skip ?_
      rw [bytes_append, ← Nat.add_assoc, ← hstart, ← hstop]
      exact ih hsome
    · exact .cons hgap hstart hstop (ih hothers)

/-- Edits of spans that are laid out can be spliced. -/
lemma exists_splice {edits : List Edit} (h : Laid offset t (edits.map (·.span))) :
    ∃ out, Splice offset t edits out := by
  generalize hspans : edits.map (·.span) = spans at h
  induction h generalizing edits with
  | nil =>
    obtain rfl := List.map_eq_nil_iff.1 hspans
    exact ⟨_, .nil⟩
  | cons hgap hstart hstop h ih =>
    obtain ⟨e, es, rfl, rfl, hes⟩ := List.map_eq_cons_iff.1 hspans
    obtain ⟨out, hout⟩ := ih hes
    exact ⟨_, .cons hstart hstop hout⟩

end Laid

/-- Spans that are laid out fall between characters. -/
lemma Laid.cuts (pre : Text) {t : Text} {spans : List Span} (h : Laid (bytes pre) t spans) :
    ∀ s ∈ spans, s.Cuts (pre ++ t) := by
  generalize hk : bytes pre = k at h
  induction h generalizing pre with
  | nil => simp
  | @cons offset gap covered rest s spans hgap hstart hstop h ih =>
    intro r hr
    rcases List.mem_cons.1 hr with rfl | hr
    · exact ⟨pre ++ gap, covered, rest, by simp, by rw [hstart, bytes_append, hk], hstop⟩
    · have hcuts := ih (pre ++ (gap ++ covered)) (by simp only [bytes_append]; omega) r hr
      simpa using hcuts

/-! ## Carrying edits out -/

namespace Splice

variable {offset : Nat} {t out : Text} {e : Edit} {edits : List Edit}

/-- Edits may stand further right. -/
lemma skip {skipped : Text} (h : Splice (offset + bytes skipped) t edits out) :
    Splice offset (skipped ++ t) edits (skipped ++ out) := by
  generalize hk : offset + bytes skipped = k at h
  cases h with
  | nil => exact .nil
  | cons hstart hstop h =>
    rw [← List.append_assoc, ← List.append_assoc skipped]
    refine .cons ?_ hstop h
    rw [hstart, ← hk, bytes_append, Nat.add_assoc]

lemma bounds (h : Splice offset t edits out) :
    ∀ e ∈ edits, offset ≤ e.span.start ∧ e.span.start ≤ e.span.stop := by
  induction h with
  | nil => simp
  | @cons offset gap covered rest out e edits hstart hstop _ ih =>
    intro f hf
    rcases List.mem_cons.1 hf with rfl | hf
    · omega
    · have := ih f hf
      omega

/-- The spans of edits that can be spliced fall between characters. -/
lemma cuts (pre : Text) (h : Splice (bytes pre) t edits out) :
    ∀ e ∈ edits, e.span.Cuts (pre ++ t) := by
  generalize hk : bytes pre = k at h
  induction h generalizing pre with
  | nil => simp
  | @cons offset gap covered rest out e edits hstart hstop h ih =>
    intro f hf
    rcases List.mem_cons.1 hf with rfl | hf
    · exact ⟨pre ++ gap, covered, rest, by simp, by rw [hstart, bytes_append, hk], hstop⟩
    · have hcuts := ih (pre ++ (gap ++ covered)) (by simp only [bytes_append]; omega) f hf
      simpa using hcuts

/-- Edits that can be spliced are in order. -/
lemma sorted (h : Splice offset t edits out) : Edit.sorted edits = edits := by
  induction h with
  | nil => rfl
  | @cons offset gap covered rest out e edits hstart hstop h ih =>
    have hinsert : Edit.sorted (e :: edits) = Edit.insertInOrder e edits :=
      congrArg (Edit.insertInOrder e) ih
    rw [hinsert]
    cases edits with
    | nil => rfl
    | cons f edits =>
      have hf := h.bounds f (List.mem_cons_self ..)
      have hbefore : e.before f = true := by
        simp only [Edit.before, Bool.or_eq_true, decide_eq_true_eq, Bool.and_eq_true, beq_iff_eq]
        omega
      rw [Edit.insertInOrder, if_pos hbefore]

/-- Edits that can be spliced do not overlap. -/
lemma overlap?_eq_none (h : Splice offset t edits out) : Edit.overlap? edits = none := by
  induction h with
  | nil => rfl
  | @cons offset gap covered rest out e edits hstart hstop h ih =>
    cases edits with
    | nil => rfl
    | cons f edits =>
      have hf := h.bounds f (List.mem_cons_self ..)
      rw [Edit.overlap?, if_neg (by omega), ih]

/-- One edit between a text and what follows. -/
lemma apply_eq_ok (pre covered rest : Text) (hstart : e.span.start = bytes pre)
    (hstop : e.span.stop = e.span.start + bytes covered) :
    e.apply (pre ++ (covered ++ rest)) = .ok (pre ++ (e.replacement ++ rest)) := by
  have hbehind : e.span.stop = bytes (pre ++ covered) := by rw [hstop, hstart, bytes_append]
  have hend : decide (e.span.stop > bytes (pre ++ (covered ++ rest))) = false := by
    rw [hbehind, ← List.append_assoc, bytes_append (pre ++ covered), decide_eq_false_iff_not]
    omega
  have hfirst : isBoundary e.span.start (pre ++ (covered ++ rest)) = true :=
    hstart ▸ isBoundary_bytes_append pre _
  have hsecond : isBoundary e.span.stop (pre ++ (covered ++ rest)) = true := by
    rw [hbehind, ← List.append_assoc]
    exact isBoundary_bytes_append _ _
  rw [Edit.apply, if_neg (by rw [hend, hfirst, hsecond]; decide), hstart,
    takeBytes_bytes_append, hbehind, ← List.append_assoc pre covered, dropBytes_bytes_append,
    List.append_assoc]

/-- Carrying edits out from the last one on leaves the text in front of them alone. -/
lemma foldr_apply (pre : Text) (h : Splice (bytes pre) t edits out) :
    edits.foldr (fun e done => done >>= e.apply) (.ok (pre ++ t)) = .ok (pre ++ out) := by
  generalize hk : bytes pre = k at h
  induction h generalizing pre with
  | nil => rfl
  | @cons offset gap covered rest out e edits hstart hstop h ih =>
    have hinner := ih (pre ++ (gap ++ covered)) (by simp only [bytes_append]; omega)
    simp only [List.append_assoc] at hinner
    have happly := apply_eq_ok (pre ++ gap) covered out
      (by rw [hstart, bytes_append, hk]) hstop
    simp only [List.append_assoc] at happly
    rw [List.foldr_cons, hinner]
    exact happly

/-- **A batch that can be spliced is carried out**, and what comes of it is the splice.  The edits
of a splice are in order already, so sorting leaves them as they are. -/
theorem applyEdits (h : Splice 0 t edits out) : applyEdits edits t = .ok out := by
  unfold SqlInlay.applyEdits
  simp only [h.sorted, h.overlap?_eq_none]
  exact foldr_apply [] h

end Splice

/-! ## Cutting edits down -/

lemma commonOpening_prefix (s t : Text) : ∃ rest, t = commonOpening s t ++ rest := by
  induction s generalizing t with
  | nil => exact ⟨t, by cases t <;> rfl⟩
  | cons a s ih =>
    cases t with
    | nil => exact ⟨[], rfl⟩
    | cons b t =>
      by_cases h : a = b
      · obtain ⟨rest, hr⟩ := ih t
        exact ⟨rest, by simp [commonOpening, h, ← hr]⟩
      · exact ⟨b :: t, by simp [commonOpening, h]⟩

/-- What two texts have in common at both ends, without overlap. -/
lemma exists_common (s t : Text) :
    let opening := commonOpening s t
    let ending := commonOpening (s.drop opening.length).reverse (t.drop opening.length).reverse
    ∃ m n, s = opening ++ (m ++ ending.reverse) ∧ t = opening ++ (n ++ ending.reverse) := by
  intro opening ending
  obtain ⟨sRest, hs⟩ := exists_eq_commonOpening_append s t
  obtain ⟨tRest, ht⟩ := commonOpening_prefix s t
  have hsDrop : s.drop opening.length = sRest := by
    conv_lhs => rw [hs]
    exact List.drop_left
  have htDrop : t.drop opening.length = tRest := by
    conv_lhs => rw [ht]
    exact List.drop_left
  have hending : ending = commonOpening sRest.reverse tRest.reverse := by
    simp only [ending, hsDrop, htDrop]
  obtain ⟨m, hm⟩ := exists_eq_commonOpening_append sRest.reverse tRest.reverse
  obtain ⟨n, hn⟩ := commonOpening_prefix sRest.reverse tRest.reverse
  rw [← hending] at hm hn
  have hsRest : sRest = m.reverse ++ ending.reverse := by
    rw [← List.reverse_append, ← hm, List.reverse_reverse]
  have htRest : tRest = n.reverse ++ ending.reverse := by
    rw [← List.reverse_append, ← hn, List.reverse_reverse]
  exact ⟨m.reverse, n.reverse, by rw [← hsRest]; exact hs, by rw [← htRest]; exact ht⟩

/-- How an edit is cut down: what the old and the new text have in common at both ends goes.  The
two ends do not overlap in either text. -/
structure CutDown (s : Span) (old new : Text) (e : Edit) (opening covered ending : Text) :
    Prop where
  old_eq : old = opening ++ (covered ++ ending)
  new_eq : new = opening ++ (e.replacement ++ ending)
  buffer : e.span.buffer = s.buffer
  start : e.span.start = s.start + bytes opening
  stop : e.span.stop = e.span.start + bytes covered

/-- There is no edit between equal texts, and there is one between different ones. -/
lemma Edit.between?_eq_none_iff {buffer replacement : Text} {span : Span} :
    between? buffer span replacement = none ↔ span.of buffer = replacement := by
  unfold between?
  simp only
  split_ifs with h <;> simp [h]

/-- An edit is cut down by what the old and the new text have in common. -/
lemma between?_of_ne (pre old rest : Text) {s : Span} (hstart : s.start = bytes pre)
    (hstop : s.stop = s.start + bytes old) {new : Text} (hne : old ≠ new) :
    ∃ e covered, Edit.between? (pre ++ (old ++ rest)) s new = some e ∧
      CutDown s old new e (commonOpening old new) covered
        (commonOpening (old.drop (commonOpening old new).length).reverse
          (new.drop (commonOpening old new).length).reverse).reverse := by
  have hold : s.of (pre ++ (old ++ rest)) = old := slice_bytes hstart (by rw [hstop, hstart])
  unfold Edit.between?
  simp only [hold, if_neg hne]
  obtain ⟨m, n, hm, hn⟩ := exists_common old new
  generalize commonOpening old new = opening at hm hn ⊢
  generalize commonOpening (old.drop opening.length).reverse
    (new.drop opening.length).reverse = ending at hm hn ⊢
  refine ⟨_, m, rfl, hm, ?_, rfl, rfl, ?_⟩
  · conv_lhs => rw [hn]
    have hdrop : new.drop opening.length = n ++ ending.reverse := by
      rw [hn]
      exact List.drop_left
    have htake :
        (n ++ ending.reverse).take ((n ++ ending.reverse).length - ending.length) = n := by
      rw [List.length_append, List.length_reverse, Nat.add_sub_cancel]
      exact List.take_left
    simp only [hdrop, htake]
  · have hsum := congrArg bytes hm
    simp only [bytes_append, bytes_reverse] at hsum
    simp only
    omega

/-- There is nothing to change, or the edit is cut down. -/
lemma between?_cases (pre old rest : Text) {s : Span} (hstart : s.start = bytes pre)
    (hstop : s.stop = s.start + bytes old) (new : Text) :
    (old = new ∧ Edit.between? (pre ++ (old ++ rest)) s new = none) ∨
      ∃ e opening covered ending,
        Edit.between? (pre ++ (old ++ rest)) s new = some e ∧
          CutDown s old new e opening covered ending := by
  by_cases heq : old = new
  · have hold : s.of (pre ++ (old ++ rest)) = old := slice_bytes hstart (by rw [hstop, hstart])
    exact .inl ⟨heq, Edit.between?_eq_none_iff.2 (hold.trans heq)⟩
  · obtain ⟨e, covered, hsome, hcut⟩ := between?_of_ne pre old rest hstart hstop heq
    exact .inr ⟨e, _, covered, _, hsome, hcut⟩

/-- An edit cut down lies within the span that it was cut down from. -/
lemma contains_of_between? {s : Span} {t new : Text} {e : Edit} (hs : s.Cuts t)
    (h : Edit.between? t s new = some e) :
    s.contains e.span = true ∧ e.span.start ≤ e.span.stop := by
  obtain ⟨front, covered, back, rfl, hstart, hstop⟩ := hs
  rcases between?_cases front covered back hstart hstop new with
    ⟨-, hnone⟩ | ⟨f, opening, m, ending, hf, hcut⟩
  · simp [hnone] at h
  · obtain rfl : f = e := by simpa [hf] using h
    have hbytes := congrArg bytes hcut.old_eq
    have hbuffer := hcut.buffer
    have hfirst := hcut.start
    have hlast := hcut.stop
    simp only [bytes_append] at hbytes
    rw [Span.contains_iff]
    refine ⟨⟨hbuffer.symm, ?_, ?_⟩, ?_⟩ <;> omega

namespace Splice

variable {t out : Text} {rewritings : List Edit}

/-- Edits cut down to what differs do the same to a text.  An edit that changes nothing is passed
over together with what is in front of it, and of another one the common ends become part of what
lies between the edits. -/
lemma between (pre : Text) (h : Splice (bytes pre) t rewritings out) :
    Splice (bytes pre) t
      (rewritings.filterMap fun r => Edit.between? (pre ++ t) r.span r.replacement) out := by
  generalize hk : bytes pre = k at h ⊢
  induction h generalizing pre with
  | nil => exact .nil
  | @cons offset gap covered rest out r rewritings hstart hstop h ih =>
    have hrest := ih (pre ++ (gap ++ covered)) (by simp only [bytes_append]; omega)
    have hcases := between?_cases (pre ++ gap) covered rest (s := r.span)
      (by rw [hstart, bytes_append, hk]) hstop r.replacement
    simp only [List.append_assoc] at hrest hcases
    rcases hcases with ⟨hsame, hnone⟩ | ⟨e, opening, old, ending, hsome, hcut⟩
    · simp only [List.filterMap_cons, hnone]
      rw [← hsame]
      refine skip (skip ?_)
      rw [← hstart, ← hstop]
      exact hrest
    · simp only [List.filterMap_cons, hsome]
      have hcovered := hcut.old_eq
      rw [hcut.new_eq]
      subst hcovered
      have hbytes : bytes (opening ++ (old ++ ending)) =
          bytes opening + bytes old + bytes ending := by
        simp only [bytes_append]
        omega
      have htext : gap ++ (opening ++ (old ++ ending) ++ rest) =
          (gap ++ opening) ++ (old ++ (ending ++ rest)) := by simp
      have hout : gap ++ (opening ++ (e.replacement ++ ending) ++ out) =
          (gap ++ opening) ++ (e.replacement ++ (ending ++ out)) := by simp
      rw [htext, hout]
      refine .cons ?_ hcut.stop (skip ?_)
      · rw [hcut.start, hstart, bytes_append, Nat.add_assoc]
      · have hstop' : e.span.stop + bytes ending = r.span.stop := by
          rw [hcut.stop, hcut.start, hstop]
          omega
        rw [hstop']
        simpa using hrest

/-- The edits in front of a place between the rewritings are those that stop there or before.  They
are cut down alike where nothing follows the place. -/
lemma filter_between {front u front' : Text} {done more : List Edit}
    (hdone : Splice 0 front done front') (h : Splice 0 (front ++ u) (done ++ more) out)
    (hmore : ∀ r ∈ more, bytes front < r.span.start) :
    ((done ++ more).filterMap fun r =>
        Edit.between? (front ++ u) r.span r.replacement).filter (·.span.stop ≤ bytes front) =
      done.filterMap fun r => Edit.between? front r.span r.replacement := by
  have hcuts : ∀ r ∈ done, r.span.Cuts front := hdone.cuts []
  have hsame : ∀ r ∈ done, Edit.between? (front ++ u) r.span r.replacement =
      Edit.between? front r.span r.replacement := fun r hr => by
    simp only [Edit.between?, (hcuts r hr).of_append u]
  rw [List.filterMap_append, List.filter_append, List.filterMap_congr hsame]
  have hfront : (done.filterMap fun r => Edit.between? front r.span r.replacement).filter
      (·.span.stop ≤ bytes front) =
        done.filterMap fun r => Edit.between? front r.span r.replacement := by
    refine List.filter_eq_self.2 fun e he => ?_
    obtain ⟨r, hr, he⟩ := List.mem_filterMap.1 he
    have hwithin := Span.contains_iff.1 (contains_of_between? (hcuts r hr) he).1
    have hstop := (hcuts r hr).stop_le
    simp only [decide_eq_true_eq]
    omega
  have hbehind : (more.filterMap fun r => Edit.between? (front ++ u) r.span r.replacement).filter
      (·.span.stop ≤ bytes front) = [] := by
    refine List.filter_eq_nil_iff.2 fun e he => ?_
    obtain ⟨r, hr, he⟩ := List.mem_filterMap.1 he
    obtain ⟨hcontains, hforward⟩ :=
      contains_of_between? (h.cuts [] r (List.mem_append_right done hr)) he
    have hwithin := Span.contains_iff.1 hcontains
    have hlt := hmore r hr
    simp only [decide_eq_true_eq]
    omega
  rw [hfront, hbehind, List.append_nil]

end Splice

end SqlInlay
