import Mathlib.Data.List.Perm.Basic
import Mathlib.Data.List.Sort
import SqlInlay.Proofs.Splice

/-!
# Batches in any order

`applyEdits` sorts a batch, looks at neighbours only, and checks the ends of each span against a
text that has been edited further right already.  None of this shows in what a batch does:
`applyEdits_batch` speaks of all pairs of its edits, of the text as it was, and of the order of the
batch only where several edits have one span.  A caller may put edits together from several places
and hand them over as they come.

**Order.**  `Rearranges` relates batches of the same edits in which those of one span keep their
order.  Sorting is such a rearrangement (`rearranges_sorted`), and no other one is sorted
(`sorted_eq_of_rearranges`).  Edits of one span have to keep their order because insertions at one
place do not commute.

**Overlaps.**  Sorted edits of which neighbours stand apart stand apart altogether
(`inOrder_of_overlap?`), for a span that starts further right cannot reach back over one between.

**Ends.**  What is right of an edit has been replaced when its turn comes, and what is left of it
has not.  So the ends of its span fall between characters of the edited text where they do so in the
text as it was (`Splice.exists_split`).

**Both ways.**  `applyEdits_eq_ok_iff` says when a batch can be carried out and what comes of it in
one equivalence: the sorted edits can be spliced.  The theorem takes it apart into what has to hold
of the spans and what the order is worth.
-/

namespace SqlInlay

open Text

/-- A batch is for one buffer, and no span of it stops before it starts.  Nothing is asked of where
the spans lie; whether they fit the text is for carrying the batch out to find. -/
structure IsBatch (buffer : Nat) (edits : List Edit) : Prop where
  buffer : ∀ e ∈ edits, e.span.buffer = buffer
  forward : ∀ e ∈ edits, e.span.start ≤ e.span.stop

/-- The same edits, in an order in which those of one span come as they came.  Edits of different
spans may change places in any way. -/
structure Rearranges (edits others : List Edit) : Prop where
  perm : others.Perm edits
  stable : ∀ s : Span, others.filter (·.span = s) = edits.filter (·.span = s)

/-- The edits stand apart and in order: each stops before the next one starts. -/
def InOrder (edits : List Edit) : Prop := edits.Pairwise fun e f => e.span.stop ≤ f.span.start

/-! ## Sorting

Edits are compared by their spans, and edits of one span are equal to each other in this order.
That is what keeps their order under a sort by insertion.
-/

namespace Edit

lemma before_iff {e f : Edit} : e.before f = true ↔
    e.span.start < f.span.start ∨ e.span.start = f.span.start ∧ e.span.stop ≤ f.span.stop := by
  simp [before]

instance : Std.Total fun e f : Edit => e.before f = true where
  total e f := by
    simp only [before_iff]
    omega

instance : IsTrans Edit fun e f => e.before f = true where
  trans e f g := by
    simp only [before_iff]
    omega

lemma sorted_eq_insertionSort (edits : List Edit) :
    sorted edits = edits.insertionSort fun e f => e.before f = true := by
  have hinsert : ∀ (e : Edit) (es : List Edit),
      insertInOrder e es = es.orderedInsert (fun e f => e.before f = true) e := by
    intro e es
    induction es with
    | nil => rfl
    | cons f es ih => rw [insertInOrder, List.orderedInsert_cons, ih]
  induction edits with
  | nil => rfl
  | cons e es ih =>
    rw [List.insertionSort_cons, ← ih, ← hinsert]
    rfl

lemma pairwise_sorted (edits : List Edit) :
    (sorted edits).Pairwise fun e f => e.before f = true := by
  rw [sorted_eq_insertionSort]
  exact List.pairwise_insertionSort _ edits

end Edit

variable {buffer : Nat} {edits others : List Edit} {text : Text}

lemma IsBatch.of_perm (h : IsBatch buffer edits) (hperm : others.Perm edits) :
    IsBatch buffer others :=
  ⟨fun e he => h.buffer e (hperm.mem_iff.1 he), fun e he => h.forward e (hperm.mem_iff.1 he)⟩

/-- Sorting keeps the order of the edits of one span. -/
lemma rearranges_sorted (edits : List Edit) : Rearranges edits (Edit.sorted edits) := by
  have hperm : (Edit.sorted edits).Perm edits := by
    rw [Edit.sorted_eq_insertionSort]
    exact List.perm_insertionSort _ edits
  refine ⟨hperm, fun s => ?_⟩
  have hequal : (edits.filter (·.span = s)).Pairwise fun e f => e.before f = true := by
    refine List.pairwise_of_forall_mem_list fun e he f hf => ?_
    have he : e.span = s := by simpa using List.of_mem_filter he
    have hf : f.span = s := by simpa using List.of_mem_filter hf
    simp [Edit.before_iff, he, hf]
  have hsublist : (edits.filter (·.span = s)).Sublist (Edit.sorted edits) := by
    rw [Edit.sorted_eq_insertionSort]
    exact List.sublist_insertionSort hequal List.filter_sublist
  have hfiltered := hsublist.filter (·.span = s)
  simp only [List.filter_filter, Bool.and_self] at hfiltered
  exact (hfiltered.eq_of_length (hperm.filter _).length_eq.symm).symm

/-- Sorted batches of the same edits are the same, if those of one span come in one order.  The
heads come before each other, so they share a span; and each is the first of that span, so they are
one edit. -/
lemma eq_of_pairwise_before (hedits : edits.Pairwise fun e f => e.before f = true)
    (hothers : others.Pairwise fun e f => e.before f = true)
    (hbuffer : ∀ e ∈ edits, e.span.buffer = buffer) (h : Rearranges edits others) :
    others = edits := by
  induction edits generalizing others with
  | nil => exact h.perm.eq_nil
  | cons e es ih =>
    obtain ⟨f, fs, rfl⟩ : ∃ f fs, others = f :: fs :=
      List.exists_cons_of_ne_nil fun hnil => by simpa [hnil] using h.perm.length_eq
    rw [List.pairwise_cons] at hedits hothers
    have hmem : f ∈ e :: es := h.perm.mem_iff.1 (List.mem_cons_self ..)
    have hmem' : e ∈ f :: fs := h.perm.mem_iff.2 (List.mem_cons_self ..)
    -- the heads come before each other, so they have one span, and each is the first of it
    have hspan : f.span = e.span := by
      have hef : e.before f = true := by
        rcases List.mem_cons.1 hmem with rfl | hf
        · simp [Edit.before_iff]
        · exact hedits.1 f hf
      have hfe : f.before e = true := by
        rcases List.mem_cons.1 hmem' with rfl | he
        · simp [Edit.before_iff]
        · exact hothers.1 e he
      have hf := hbuffer f hmem
      have he := hbuffer e (List.mem_cons_self ..)
      rw [Edit.before_iff] at hef hfe
      rcases hs : f.span with ⟨b, start, stop⟩
      rcases ht : e.span with ⟨b', start', stop'⟩
      simp only [hs, ht] at hef hfe hf he
      rw [Span.mk.injEq]
      omega
    obtain rfl : f = e := by
      have hfirst := congrArg List.head? (h.stable e.span)
      simpa [hspan] using hfirst
    have hrest : Rearranges es fs := by
      refine ⟨h.perm.cons_inv, fun s => ?_⟩
      have hstable := h.stable s
      by_cases hs : f.span = s
      · simpa [hs] using hstable
      · simpa [hs] using hstable
    rw [ih hedits.2 hothers.2 (fun g hg => hbuffer g (List.mem_cons_of_mem _ hg)) hrest]

lemma Rearranges.trans {thirds : List Edit} (h : Rearranges edits others)
    (h' : Rearranges others thirds) : Rearranges edits thirds :=
  ⟨h'.perm.trans h.perm, fun s => (h'.stable s).trans (h.stable s)⟩

lemma Rearranges.symm (h : Rearranges edits others) : Rearranges others edits :=
  ⟨h.perm.symm, fun s => (h.stable s).symm⟩

/-- Rearranged batches are sorted alike. -/
lemma sorted_eq_of_rearranges (h : IsBatch buffer edits) (hothers : Rearranges edits others) :
    Edit.sorted others = Edit.sorted edits := by
  refine eq_of_pairwise_before (Edit.pairwise_sorted edits) (Edit.pairwise_sorted others)
    (h.of_perm (rearranges_sorted edits).perm).buffer ?_
  exact (rearranges_sorted edits).symm.trans (hothers.trans (rearranges_sorted others))

/-! ## Overlaps

Two empty spans at one place do not overlap, and an empty span at the end of another one does not
overlap that.  So to stand apart is to stop no later than the next one starts.
-/

/-- Neighbours that stand apart make a list that stands apart. -/
lemma inOrder_of_overlap? (hforward : ∀ e ∈ edits, e.span.start ≤ e.span.stop)
    (h : Edit.overlap? edits = none) : InOrder edits := by
  fun_induction Edit.overlap? edits with
  | case1 => simp at h
  | case2 e f es hle ih =>
    rw [List.forall_mem_cons] at hforward
    have hrest : InOrder (f :: es) := ih hforward.2 h
    have hf := hforward.2 f (List.mem_cons_self ..)
    have hbehind := (List.pairwise_cons.1 hrest).1
    refine List.pairwise_cons.2 ⟨fun g hg => ?_, hrest⟩
    rcases List.mem_cons.1 hg with rfl | hg
    · omega
    · have := hbehind g hg
      omega
  | case3 es hshort =>
    match es with
    | [] => exact .nil
    | [e] => exact List.pairwise_singleton ..
    | e :: f :: es => exact absurd rfl (hshort e f es)

/-- Sorted edits stand apart where no two of them overlap. -/
lemma inOrder_iff (h : IsBatch buffer edits)
    (hsorted : edits.Pairwise fun e f => e.before f = true) :
    InOrder edits ↔ edits.Pairwise fun e f => e.span.overlaps f.span = false := by
  have hpair : ∀ {e f : Edit}, e ∈ edits → f ∈ edits → e.before f = true →
      (e.span.stop ≤ f.span.start ↔ e.span.overlaps f.span = false) := by
    intro e f he hf hef
    have hestop := h.forward e he
    have hfstop := h.forward f hf
    have hbuffer : e.span.buffer = f.span.buffer := (h.buffer e he).trans (h.buffer f hf).symm
    rw [Edit.before_iff] at hef
    simp only [Span.overlaps, hbuffer, beq_self_eq_true, Bool.true_and, Bool.and_eq_false_iff,
      decide_eq_false_iff_not]
    omega
  constructor
  · intro horder
    exact (hsorted.and horder).imp_of_mem fun he hf hef => (hpair he hf hef.1).1 hef.2
  · intro hapart
    exact (hsorted.and hapart).imp_of_mem fun he hf hef => (hpair he hf hef.1).2 hef.2

/-! ## Ends

A span falls between characters if both of its ends do and it does not run backwards; this is how a
condition on two numbers becomes a way to divide a text.
-/

/-- A cut between two characters divides a text. -/
lemma exists_split_of_isBoundary {n : Nat} {t : Text} (h : isBoundary n t = true) :
    ∃ front back, t = front ++ back ∧ bytes front = n := by
  induction t generalizing n with
  | nil =>
    cases n with
    | zero => exact ⟨[], [], rfl, rfl⟩
    | succ n => simp [isBoundary] at h
  | cons c t ih =>
    cases n with
    | zero => exact ⟨[], c :: t, rfl, rfl⟩
    | succ n =>
      simp only [isBoundary, Bool.and_eq_true, decide_eq_true_eq] at h
      obtain ⟨front, back, rfl, hfront⟩ := ih h.2
      exact ⟨c :: front, back, rfl, by rw [bytes_cons, hfront]; omega⟩

/-- A span falls between characters where its ends do. -/
lemma Span.cuts_iff {s : Span} {t : Text} : s.Cuts t ↔
    s.start ≤ s.stop ∧ isBoundary s.start t = true ∧ isBoundary s.stop t = true := by
  constructor
  · rintro ⟨front, covered, back, rfl, hstart, hstop⟩
    have hbehind : s.stop = bytes (front ++ covered) := by rw [hstop, hstart, bytes_append]
    refine ⟨by omega, hstart ▸ isBoundary_bytes_append front _, ?_⟩
    rw [hbehind, ← List.append_assoc]
    exact isBoundary_bytes_append _ _
  · rintro ⟨hforward, hstart, hstop⟩
    obtain ⟨front, rest, hfront, hbytes⟩ := exists_split_of_isBoundary hstart
    obtain ⟨through, back, hthrough, hbytes'⟩ := exists_split_of_isBoundary hstop
    obtain ⟨covered, rfl, rfl⟩ := prefix_of_bytes_le (hfront.symm.trans hthrough) (by omega)
    rw [bytes_append] at hbytes'
    exact ⟨front, covered, back, hfront, hbytes.symm, by omega⟩

namespace Splice

variable {offset : Nat} {t out : Text}

/-- In front of the first edit, both texts are the same, and may be divided there. -/
lemma exists_split (h : Splice offset t edits out) {k : Nat}
    (hk : isBoundary k out = true) (hfirst : ∀ e ∈ edits, offset + k ≤ e.span.start) :
    ∃ front t' out', t = front ++ t' ∧ out = front ++ out' ∧ bytes front = k ∧
      Splice (offset + k) t' edits out' := by
  obtain ⟨front, back, hout, hbytes⟩ := exists_split_of_isBoundary hk
  cases h with
  | nil =>
    subst hout
    exact ⟨front, back, back, rfl, rfl, hbytes, .nil⟩
  | @cons _ gap covered rest out e edits hstart hstop h =>
    have hle : bytes front ≤ bytes gap := by
      have := hfirst e (List.mem_cons_self ..)
      omega
    obtain ⟨gap', rfl, hback⟩ := prefix_of_bytes_le hout.symm hle
    rw [bytes_append] at hstart
    refine ⟨front, gap' ++ (covered ++ rest), gap' ++ (e.replacement ++ out),
      List.append_assoc .., List.append_assoc .., hbytes, .cons ?_ hstop h⟩
    omega

lemma inOrder (h : Splice offset t edits out) : InOrder edits := by
  induction h with
  | nil => exact .nil
  | cons _ _ h ih => exact List.pairwise_cons.2 ⟨fun f hf => (h.bounds f hf).1, ih⟩

/-- Edits that stand apart can be spliced where their spans fall between characters. -/
lemma exists_of_inOrder (pre : Text) (horder : InOrder edits)
    (hbehind : ∀ e ∈ edits, bytes pre ≤ e.span.start)
    (hcuts : ∀ e ∈ edits, e.span.Cuts (pre ++ t)) : ∃ out, Splice (bytes pre) t edits out := by
  induction edits generalizing pre t with
  | nil => exact ⟨t, .nil⟩
  | cons e edits ih =>
    rw [List.forall_mem_cons] at hbehind hcuts
    obtain ⟨hnext, horder⟩ := List.pairwise_cons.1 horder
    obtain ⟨⟨front, covered, back, hsplit, hstart, hstop⟩, hcuts⟩ := hcuts
    obtain ⟨gap, rfl, rfl⟩ := prefix_of_bytes_le hsplit (by omega)
    have hend : bytes (pre ++ gap ++ covered) = e.span.stop := by
      rw [bytes_append, hstop, hstart]
    have htext : pre ++ (gap ++ (covered ++ back)) = pre ++ gap ++ covered ++ back := by simp
    obtain ⟨out, hout⟩ := ih (pre ++ gap ++ covered) (t := back) horder
      (fun f hf => by rw [hend]; exact hnext f hf) (fun f hf => htext ▸ hcuts f hf)
    rw [hend] at hout
    rw [bytes_append] at hstart
    exact ⟨_, .cons hstart hstop hout⟩

end Splice

/-! ## Carrying a batch out

Edits are carried out from the last to the first, and the induction is along the list: the edits
behind the first one are carried out already.
-/

/-- Edits that stand apart are carried out to a splice.  The first edit is carried out last: what
lies behind it has been edited by then, and the splice made so far is divided where the span of this
one ends. -/
lemma splice_of_foldr_apply (hforward : ∀ e ∈ edits, e.span.start ≤ e.span.stop)
    (horder : InOrder edits) {out : Text}
    (h : edits.foldr (fun e done => done >>= e.apply) (.ok text) = .ok out) :
    Splice 0 text edits out := by
  induction edits generalizing out with
  | nil =>
    obtain rfl : text = out := by simpa using h
    exact .nil
  | cons e edits ih =>
    rw [List.forall_mem_cons] at hforward
    obtain ⟨hnext, horder⟩ := List.pairwise_cons.1 horder
    rw [List.foldr_cons] at h
    cases hdone : edits.foldr (fun e done => done >>= e.apply) (.ok text) with
    | error failure =>
      rw [hdone] at h
      cases h
    | ok done =>
      have hsplice := ih hforward.2 horder hdone
      rw [hdone] at h
      change e.apply done = .ok out at h
      unfold Edit.apply at h
      split at h
      · cases h
      · rename_i hinside
        simp only [Bool.or_eq_true, decide_eq_true_eq, Bool.not_eq_true', not_or,
          Bool.not_eq_false] at hinside
        obtain ⟨⟨-, hstart⟩, hstop⟩ := hinside
        obtain ⟨through, t', done', rfl, rfl, hbytes, hrest⟩ :=
          hsplice.exists_split hstop fun f hf => by rw [Nat.zero_add]; exact hnext f hf
        obtain ⟨front, covered, back, hsplit, hfront, hcovered⟩ :=
          Span.cuts_iff.2 ⟨hforward.1, hstart, hstop⟩
        obtain ⟨rfl, rfl⟩ : through = front ++ covered ∧ done' = back := by
          rw [← List.append_assoc] at hsplit
          refine List.append_inj hsplit ?_
          obtain ⟨m, hm, -⟩ := prefix_of_bytes_le hsplit (by rw [bytes_append]; omega)
          have hzero : bytes m = 0 := by
            have hlength := congrArg bytes hm
            rw [bytes_append, bytes_append] at hlength
            omega
          rw [hm, bytes_eq_zero.1 hzero, List.append_nil]
        have htext : front ++ covered ++ done' = front ++ (covered ++ done') := by simp
        obtain rfl := Except.ok.inj h
        rw [htext, hfront, takeBytes_bytes_append, hcovered, hfront, ← bytes_append,
          ← List.append_assoc front covered, dropBytes_bytes_append, List.append_assoc,
          List.append_assoc]
        rw [Nat.zero_add] at hrest
        exact .cons (by rw [Nat.zero_add]; exact hfront) hcovered hrest

/-- A batch is carried out exactly where its sorted edits can be spliced, and the splice is what
comes of it. -/
lemma applyEdits_eq_ok_iff (h : IsBatch buffer edits) {out : Text} :
    applyEdits edits text = .ok out ↔ Splice 0 text (Edit.sorted edits) out := by
  have hsorted := h.of_perm (rearranges_sorted edits).perm
  constructor
  · intro happly
    unfold applyEdits at happly
    simp only at happly
    split at happly
    · cases happly
    · rename_i hnone
      exact splice_of_foldr_apply hsorted.forward (inOrder_of_overlap? hsorted.forward hnone)
        happly
  · intro hsplice
    have happly := hsplice.applyEdits
    unfold applyEdits at happly ⊢
    rwa [hsplice.sorted] at happly

/-- **A batch does what its edits say, in whatever order they come.**  It is carried out exactly
where no two spans overlap and all of them fall between characters of the text; what comes of it is
the text with each span replaced and all else kept, from left to right; and another order comes to
the same, if edits of one span keep theirs. -/
theorem applyEdits_batch (h : IsBatch buffer edits) (text : Text) :
    ((∃ out, applyEdits edits text = .ok out) ↔
      edits.Pairwise (fun e f => e.span.overlaps f.span = false) ∧
        ∀ e ∈ edits, e.span.Cuts text) ∧
    (∀ out, applyEdits edits text = .ok out ↔
      ∃ ordered, Rearranges edits ordered ∧ Splice 0 text ordered out) ∧
    ∀ others, Rearranges edits others → applyEdits others text = applyEdits edits text := by
  have hrearranges := rearranges_sorted edits
  have hsorted := h.of_perm hrearranges.perm
  have hapart := inOrder_iff hsorted (Edit.pairwise_sorted edits)
  rw [hrearranges.perm.pairwise_iff fun hef => by rwa [Span.overlaps_comm]] at hapart
  refine ⟨⟨?_, ?_⟩, fun out => ⟨fun happly => ?_, ?_⟩, fun others hothers => ?_⟩
  · rintro ⟨out, happly⟩
    have hsplice := (applyEdits_eq_ok_iff h).1 happly
    refine ⟨hapart.1 hsplice.inOrder, fun e he => ?_⟩
    exact hsplice.cuts [] e (hrearranges.perm.mem_iff.2 he)
  · rintro ⟨hoverlaps, hcuts⟩
    obtain ⟨out, hout⟩ := Splice.exists_of_inOrder (t := text) [] (hapart.2 hoverlaps)
      (fun e _ => Nat.zero_le _) fun e he => hcuts e (hrearranges.perm.mem_iff.1 he)
    exact ⟨out, (applyEdits_eq_ok_iff h).2 hout⟩
  · exact ⟨_, hrearranges, (applyEdits_eq_ok_iff h).1 happly⟩
  · rintro ⟨ordered, hordered, hsplice⟩
    rw [applyEdits_eq_ok_iff h, ← sorted_eq_of_rearranges h hordered, hsplice.sorted]
    exact hsplice
  · unfold applyEdits
    rw [sorted_eq_of_rearranges h hothers]

/-- Two insertions in front of a character of two bytes and a replacement behind it, the last one
given first.  The insertions come in the order in which they were given, wherever the replacement
stands in the batch. -/
theorem applyEdits_batch_insertions :
    let replaced : Edit := ⟨⟨0, 3, 4⟩, ['c']⟩
    let first : Edit := ⟨⟨0, 1, 1⟩, ['x']⟩
    let second : Edit := ⟨⟨0, 1, 1⟩, ['y', 'é']⟩
    IsBatch 0 [replaced, first, second] ∧
      applyEdits [replaced, first, second] ['a', 'é', 'b'] = .ok ['a', 'x', 'y', 'é', 'é', 'c'] ∧
      applyEdits [first, replaced, second] ['a', 'é', 'b'] =
        applyEdits [replaced, first, second] ['a', 'é', 'b'] := by
  intro replaced first second
  have hbatch : IsBatch 0 [replaced, first, second] := ⟨by decide, by decide⟩
  have hother : Rearranges [replaced, first, second] [first, replaced, second] := by
    refine ⟨by decide, fun s => ?_⟩
    by_cases h : replaced.span = s
    · subst h
      decide
    · simp [List.filter_cons, h]
  have hordered : Rearranges [replaced, first, second] [first, second, replaced] := by
    refine ⟨by decide, fun s => ?_⟩
    by_cases h : replaced.span = s
    · subst h
      decide
    · simp [List.filter_cons, h]
  have hsplice : Splice 0 (['a'] ++ ([] ++ ([] ++ ([] ++ (['é'] ++ (['b'] ++ []))))))
      [first, second, replaced]
      (['a'] ++ (['x'] ++ ([] ++ (['y', 'é'] ++ (['é'] ++ (['c'] ++ [])))))) :=
    .cons rfl rfl (.cons rfl rfl (.cons rfl rfl .nil))
  obtain ⟨-, hok, hothers⟩ := applyEdits_batch hbatch ['a', 'é', 'b']
  exact ⟨hbatch, (hok _).2 ⟨_, hordered, hsplice⟩, hothers _ hother⟩

end SqlInlay
