import Mathlib.Data.List.Forall2
import Mathlib.Data.List.Pairwise
import SqlInlay.Proofs.Host.Swaps
import SqlInlay.Reformat

/-!
# What formatting does to a buffer

`formatSource` answers with edits and reports, and an editor carries the edits out.  For that it has
to be able to trust them: that they do not overlap, that each stays within the literal it is for,
that nothing else in the buffer changes, and that a literal which could not be formatted is reported
and left alone.  `LocalEdits` collects these, and `formatSource_local` proves it of every buffer,
style and mode.

**Sites** are the stretches that hold a query: the literals of an embedded source, or the whole of a
buffer that is one query.  What a site is rewritten to is computed from the stages of formatting,
and there is nothing where a stage fails or the query is laid out already.

The way to the theorem:

* **One stretch.**  The edit for a site is its rewriting, cut down to what differs
  (`edits_formatSource`), and an edit that was cut down does what the rewriting does.
* **All of them.**  Sites are apart because the literals of a source are (`pairwise_sites`), so
  their rewritings can be spliced (`exists_splice_sites`), and the edits cut from them to the same
  effect.
* **Nothing unsettled.**  Each stretch that formatting looks at comes to an edit, to a report, or to
  nothing (`exists_outcomes`), and to one of these only.

Beyond that, rewriting the literals of an embedded source swaps some of its expressions
(`exists_swapped_sites`), which is what the module on survival starts from.
-/

namespace SqlInlay

open Text

/-! ## Sites

Nothing here runs when a buffer is formatted.  Rewritings are whole, where the edits of a run are
cut down, and so they are the simpler thing to compare edits with.
-/

/-- A stretch of a buffer that holds a query, and what it is rewritten to.  There is nothing where a
stage fails, or where a literal holds its query laid out already. -/
structure Site where
  span : Span
  rewriting : Option Text

/-- What a literal is rewritten to: the encoding of its query laid out. -/
def literalRewriting? (style : Style) (language : Host.Language) (source : Text)
    (l : Host.Literal) : Option Text :=
  match Host.decode source language l with
  | .error _ => none
  | .ok (query, hints) =>
    match Sql.formatQuery style l.dialect query with
    | .error _ => none
    | .ok formatted =>
      if formatted = query then none else (Host.encode style hints formatted).toOption

/-- What a buffer that is one query is rewritten to; it keeps a line feed at its end. -/
def standaloneRewriting? (style : Style) (source : Text) : Option Text :=
  if isBlankText source then none
  else
    match Sql.formatQuery style .native source with
    | .error _ => none
    | .ok formatted => some (formatted ++ if source.getLast? = some '\n' then ['\n'] else [])

/-- The sites of a buffer, in the order in which they stand in it. -/
def sites (style : Style) (mode : Host.SourceMode) (buffer : Nat) (source : Text) : List Site :=
  match mode with
  | .standalone => [⟨⟨buffer, 0, bytes source⟩, standaloneRewriting? style source⟩]
  | .embedded language marks =>
    (Host.literalsOf buffer language marks source).map fun l =>
      ⟨l.span, literalRewriting? style language source l⟩

/-- The rewriting of a site as an edit of all of it. -/
def Site.edit? (s : Site) : Option Edit := s.rewriting.map (⟨s.span, ·⟩)

/-- The spans of what formatting looks at, those of skipped annotations included.  These are what
reports are about. -/
def stretches (mode : Host.SourceMode) (buffer : Nat) (source : Text) : List Span :=
  match mode with
  | .standalone => [⟨buffer, 0, bytes source⟩]
  | .embedded language marks =>
    (Host.locate buffer language marks source).map fun
      | .literal l => l.span
      | .skipped span _ => span

/-- A stretch comes to an edit within it, to a report about it, or to nothing.  There are no other
outcomes, so no report comes with an edit and no stretch gets two. -/
inductive Settles (span : Span) : Outcome → Prop
  | nothing : Settles span ⟨[], []⟩
  | edit {e : Edit} (h : span.contains e.span = true) : Settles span ⟨[e], []⟩
  | report {d : Diagnostic} (h : d.span = span) : Settles span ⟨[], [d]⟩

/-- The edits of a buffer are local.  The fields are about the edits in the order in which a run
lists them, and `applied` is about carrying them all out together. -/
structure LocalEdits (style : Style) (mode : Host.SourceMode) (buffer : Nat) (source : Text) :
    Prop where
  /-- The sites are in order and apart. -/
  apart : (sites style mode buffer source).Pairwise fun s t => s.span.stop < t.span.start
  /-- The edits are in order and apart. -/
  ordered : (formatSource style mode buffer source).edits.Pairwise fun e f =>
    e.span.stop < f.span.start
  forward : ∀ e ∈ (formatSource style mode buffer source).edits, e.span.start ≤ e.span.stop
  /-- Each edit lies within exactly one site. -/
  home : ∀ e ∈ (formatSource style mode buffer source).edits,
    ∃! s, s ∈ sites style mode buffer source ∧ s.span.contains e.span = true
  /-- Each stretch comes to one edit or one report at most. -/
  settled : ∃ outcomes, formatSource style mode buffer source = .concat outcomes ∧
    List.Forall₂ Settles (stretches mode buffer source) outcomes
  /-- The edits can be carried out, and rewrite the sites. -/
  applied : ∃ out, applyEdits (formatSource style mode buffer source).edits source = .ok out ∧
    Splice 0 source ((sites style mode buffer source).filterMap Site.edit?) out

/-! ## One stretch -/

lemma cuts_whole (buffer : Nat) (source : Text) : (⟨buffer, 0, bytes source⟩ : Span).Cuts source :=
  ⟨[], source, [], by simp, rfl, by simp⟩

/-- The edit of a literal is its rewriting, cut down. -/
lemma edits_formatCandidate (style : Style) (language : Host.Language) (source : Text)
    (l : Host.Literal) :
    (formatCandidate style language source (.literal l)).edits =
      ((literalRewriting? style language source l).bind (Edit.between? source l.span)).toList := by
  simp only [formatCandidate, formatLiteral, literalRewriting?, bind, Except.bind, pure,
    Except.pure]
  cases hdecode : Host.decode source language l with
  | error f => rfl
  | ok decoded =>
    obtain ⟨query, hints⟩ := decoded
    cases hformat : Sql.formatQuery style l.dialect query with
    | error f => simp [Outcome.single, hformat]
    | ok formatted =>
      by_cases hsame : formatted = query
      · simp [Outcome.single, hformat, hsame]
      · cases hencode : Host.encode style hints formatted with
        | error f => simp [Outcome.single, hformat, hsame, hencode, Except.toOption]
        | ok t => simp [Outcome.single, hformat, hsame, hencode, Except.toOption]

/-- The edit of a buffer that is one query is its rewriting, cut down. -/
lemma edits_standalone (style : Style) (buffer : Nat) (source : Text) :
    (formatSource style .standalone buffer source).edits =
      ((standaloneRewriting? style source).bind
        (Edit.between? source ⟨buffer, 0, bytes source⟩)).toList := by
  simp only [formatSource, formatStandalone, standaloneRewriting?]
  by_cases hblank : isBlankText source = true
  · simp [hblank, Outcome.single]
  · cases hformat : Sql.formatQuery style .native source with
    | error f => simp [hblank, Outcome.single, Except.map]
    | ok formatted => simp [hblank, Outcome.single, Except.map]

/-- The edits of a buffer are the rewritings of its sites, cut down. -/
lemma edits_formatSource (style : Style) (mode : Host.SourceMode) (buffer : Nat) (source : Text) :
    (formatSource style mode buffer source).edits =
      (sites style mode buffer source).filterMap fun s =>
        s.rewriting.bind (Edit.between? source s.span) := by
  cases mode with
  | standalone =>
    rw [edits_standalone, sites, List.filterMap_cons]
    generalize (standaloneRewriting? style source).bind
      (Edit.between? source ⟨buffer, 0, bytes source⟩) = edit
    cases edit <;> rfl
  | embedded language marks =>
    simp only [formatSource, Outcome.concat, sites, Host.literalsOf]
    induction Host.locate buffer language marks source with
    | nil => rfl
    | cons c cs ih =>
      rw [List.map_cons, List.flatMap_cons, ih]
      cases c with
      | skipped span failure => rfl
      | literal l =>
        rw [edits_formatCandidate]
        simp only [List.filterMap_cons, Host.Candidate.literal?, List.map_cons]
        cases (literalRewriting? style language source l).bind (Edit.between? source l.span) <;>
          rfl

/-! ## All of them

Literals are located from the left, one behind the other.  All that is needed of them is what was
shown where they are located: their spans fall between characters and stand apart.
-/

/-- The sites of an embedded source are laid out in it. -/
lemma map_span_sites (style : Style) (language : Host.Language) (marks : Host.Annotations)
    (buffer : Nat) (source : Text) :
    (sites style (.embedded language marks) buffer source).map (·.span) =
      (Host.literalsOf buffer language marks source).map (·.span) := by
  rw [sites, List.map_map]
  rfl

/-- Sites fall between characters. -/
lemma cuts_of_mem_sites {style : Style} {mode : Host.SourceMode} {buffer : Nat} {source : Text}
    {s : Site} (h : s ∈ sites style mode buffer source) : s.span.Cuts source := by
  cases mode with
  | standalone =>
    obtain rfl := List.mem_singleton.1 h
    exact cuts_whole buffer source
  | embedded language marks =>
    have hmem : s.span ∈ (sites style (.embedded language marks) buffer source).map (·.span) :=
      List.mem_map_of_mem h
    rw [map_span_sites] at hmem
    exact (Host.locate_laid buffer language marks source).cuts [] _ hmem

lemma pairwise_sites (style : Style) (mode : Host.SourceMode) (buffer : Nat) (source : Text) :
    (sites style mode buffer source).Pairwise fun s t => s.span.stop < t.span.start := by
  cases mode with
  | standalone => exact List.pairwise_singleton ..
  | embedded language marks =>
    have hlaid := (Host.locate_laid buffer language marks source).pairwise
    rw [← map_span_sites style] at hlaid
    exact List.pairwise_map.1 hlaid

/-- The sites that are rewritten are among all of them. -/
lemma sublist_map_span (ss : List Site) :
    ((ss.filterMap Site.edit?).map (·.span)).Sublist (ss.map (·.span)) := by
  induction ss with
  | nil => exact .slnil
  | cons s ss ih =>
    obtain ⟨span, rewriting⟩ := s
    cases rewriting with
    | none => exact ih.cons span
    | some t => exact ih.cons_cons span

/-- The rewritings of the sites can be spliced. -/
lemma exists_splice_sites (style : Style) (mode : Host.SourceMode) (buffer : Nat)
    (source : Text) :
    ∃ out, Splice 0 source ((sites style mode buffer source).filterMap Site.edit?) out := by
  cases mode with
  | standalone =>
    simp only [sites]
    cases hrewriting : standaloneRewriting? style source with
    | none => exact ⟨source, .nil⟩
    | some t =>
      have hsplice : Splice 0 ([] ++ (source ++ []))
          [⟨⟨buffer, 0, bytes source⟩, t⟩] ([] ++ (t ++ [])) :=
        .cons rfl (Nat.zero_add _).symm .nil
      rw [List.append_nil, List.append_nil] at hsplice
      exact ⟨t, hsplice⟩
  | embedded language marks =>
    have hlaid := Host.locate_laid buffer language marks source
    rw [← map_span_sites style] at hlaid
    exact (hlaid.sublist (sublist_map_span _)).exists_splice

/-- What a literal is rewritten to is an encoding. -/
lemma encodes_of_literalRewriting? {style : Style} {language : Host.Language} {source : Text}
    {l : Host.Literal} {e : Text} (h : literalRewriting? style language source l = some e) :
    Host.Encodes language source l e := by
  unfold literalRewriting? at h
  split at h
  · cases h
  · rename_i query hints hdecode
    split at h
    · cases h
    · rename_i formatted _
      split at h
      · cases h
      · refine ⟨query, hints, style, formatted, hdecode, ?_⟩
        cases hencode : Host.encode style hints formatted with
        | error failure => simp [hencode, Except.toOption] at h
        | ok t =>
          rw [hencode] at h
          exact congrArg Except.ok (Option.some.inj h)

/-- What an embedded source is rewritten to has other expressions in place of some literals. -/
lemma exists_swapped_sites (style : Style) (language : Host.Language) (marks : Host.Annotations)
    (buffer : Nat) (source : Text) :
    ∃ out, Host.Swapped language 0
      ((sites style (.embedded language marks) buffer source).filterMap Site.edit?) source out := by
  have hlocated := Host.located_locateFrom buffer language marks (.start source)
  have hencodes : ∀ l ∈ (Host.locateFrom buffer language marks (.start source)).filterMap
      Host.Candidate.literal?, .literal l ∈ Host.locate buffer language marks source ∧
        ∀ e ∈ literalRewriting? style language source l,
          Host.Encodes language source l e := by
    intro l hl
    obtain ⟨c, hc, hliteral⟩ := List.mem_filterMap.1 hl
    obtain rfl : c = .literal l := by
      cases c with
      | literal m => exact congrArg Host.Candidate.literal (Option.some.inj hliteral)
      | skipped span failure => cases hliteral
    exact ⟨hc, fun e he => encodes_of_literalRewriting? he⟩
  rw [sites, List.filterMap_map]
  exact Host.exists_swapped (Host.Cursor.text_start source) hlocated hencodes

/-- An outcome of one edit or report at most. -/
lemma settles_single {span : Span} {result : Except Failure (Option Edit)}
    (h : ∀ e, result = .ok (some e) → span.contains e.span = true) :
    Settles span (.single span result) := by
  match result with
  | .ok none => exact .nothing
  | .ok (some e) => exact .edit (h e rfl)
  | .error f =>
    simp only [Outcome.single, Diagnostic.of?]
    cases f.kind? with
    | none => exact .nothing
    | some kind => exact .report rfl

/-- Each stretch is settled by its outcome.  A source that is all SQL is one stretch; in a host
language there is one for each candidate, and an edit that comes of it lies within its span because
it was cut down to what differs. -/
lemma exists_outcomes (style : Style) (mode : Host.SourceMode) (buffer : Nat) (source : Text) :
    ∃ outcomes, formatSource style mode buffer source = .concat outcomes ∧
      List.Forall₂ Settles (stretches mode buffer source) outcomes := by
  have hcontains : ∀ (span : Span) (rewriting : Option Text), span.Cuts source → ∀ e,
      (rewriting.bind (Edit.between? source span)) = some e → span.contains e.span = true := by
    intro span rewriting hcuts e he
    obtain ⟨t, -, ht⟩ := Option.bind_eq_some_iff.1 he
    exact (contains_of_between? hcuts ht).1
  cases mode with
  | standalone =>
    refine ⟨[formatSource style .standalone buffer source], ?_, ?_⟩
    · simp [Outcome.concat]
    · refine .cons (settles_single fun e he => ?_) .nil
      have hedits := edits_standalone style buffer source
      simp only [formatSource, he, Outcome.single] at hedits
      exact hcontains _ _ (cuts_whole buffer source) e
        (Option.toList_eq_singleton_iff.1 hedits.symm)
  | embedded language marks =>
    refine ⟨_, rfl, ?_⟩
    simp only [stretches]
    rw [List.forall₂_map_left_iff, List.forall₂_map_right_iff, List.forall₂_same]
    intro c hc
    cases c with
    | skipped span failure =>
      have hnone : ∀ e : Edit, Except.error failure = .ok (some e) →
          span.contains e.span = true := by simp
      exact settles_single hnone
    | literal l =>
      have hcuts : l.span.Cuts source := by
        refine (Host.locate_laid buffer language marks source).cuts [] _ ?_
        exact List.mem_map_of_mem (List.mem_filterMap.2 ⟨_, hc, rfl⟩)
      have hone : ∀ e, formatLiteral style language source l = .ok (some e) →
          l.span.contains e.span = true := by
        intro e he
        have hedits := edits_formatCandidate style language source l
        simp only [formatCandidate, he, Outcome.single] at hedits
        exact hcontains _ _ hcuts e (Option.toList_eq_singleton_iff.1 hedits.symm)
      exact settles_single hone

/-- Cutting the rewritings down is cutting down those of the sites. -/
lemma filterMap_edit? (source : Text) (ss : List Site) :
    (ss.filterMap Site.edit?).filterMap (fun r => Edit.between? source r.span r.replacement) =
      ss.filterMap fun s => s.rewriting.bind (Edit.between? source s.span) := by
  rw [List.filterMap_filterMap]
  congr 1
  funext s
  obtain ⟨span, rewriting⟩ := s
  cases rewriting <;> rfl

/-- **The edits of a buffer are local**: they are in order and apart, each keeps to one literal, and
carrying them out rewrites the literals that can be and nothing else. -/
theorem formatSource_local (style : Style) (mode : Host.SourceMode) (buffer : Nat)
    (source : Text) : LocalEdits style mode buffer source := by
  have hsites := pairwise_sites style mode buffer source
  have hedits := edits_formatSource style mode buffer source
  have hbetween : ∀ s ∈ sites style mode buffer source, ∀ e,
      s.rewriting.bind (Edit.between? source s.span) = some e →
        s.span.contains e.span = true ∧ e.span.start ≤ e.span.stop := by
    intro s hs e he
    obtain ⟨t, -, ht⟩ := Option.bind_eq_some_iff.1 he
    exact contains_of_between? (cuts_of_mem_sites hs) ht
  constructor
  case apart => exact hsites
  case ordered =>
    rw [hedits, List.pairwise_filterMap]
    refine hsites.imp_of_mem fun hs ht hlt e he f hf => ?_
    have hs := Span.contains_iff.1 (hbetween _ hs e he).1
    have ht := Span.contains_iff.1 (hbetween _ ht f hf).1
    omega
  case forward =>
    rw [hedits]
    intro e he
    obtain ⟨s, hs, he⟩ := List.mem_filterMap.1 he
    exact (hbetween s hs e he).2
  case home =>
    rw [hedits]
    intro e he
    obtain ⟨s, hs, he⟩ := List.mem_filterMap.1 he
    obtain ⟨hcontains, hforward⟩ := hbetween s hs e he
    refine ⟨s, ⟨hs, hcontains⟩, ?_⟩
    rintro t ⟨ht, hcontains'⟩
    by_contra hne
    have : Std.Symm fun s t : Site => s.span.stop < t.span.start ∨ t.span.stop < s.span.start :=
      ⟨fun _ _ => Or.symm⟩
    have hapart := (hsites.imp Or.inl : (sites style mode buffer source).Pairwise
      fun s t => s.span.stop < t.span.start ∨ t.span.stop < s.span.start).forall ht hs hne
    rw [Span.contains_iff] at hcontains hcontains'
    omega
  case settled => exact exists_outcomes style mode buffer source
  case applied =>
    obtain ⟨out, hout⟩ := exists_splice_sites style mode buffer source
    have hcut := Splice.between [] hout
    rw [List.nil_append, filterMap_edit?, ← hedits] at hcut
    exact ⟨out, hcut.applyEdits, hout⟩

end SqlInlay
