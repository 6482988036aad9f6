import SqlInlay.Proofs.Guarded.Codec
import SqlInlay.Proofs.Guarded.Layout
import SqlInlay.Proofs.Guarded.Locate
import SqlInlay.Reformat

/-!
# Formatting never traps

All stages of formatting with their checks, one behind the other.  `formatSource_guarded` says that
no check ever fails: whatever the text, its language, the annotations looked for and the style are,
the run comes to its end, and with the outcome that `formatSource` computes without any check.  So
what is proved of `formatSource` elsewhere is proved of the run with checks.

Each stage has its module, in which its checked definitions stand beside what they come to: stepping
over trivia and strings, locating literals, decoding and encoding, reading tokens, segmenting,
laying out.  Here they are put together in the order in which a buffer goes through them, and the
equations of the stages are chained.

**Located literals are in bounds.**  Decoding and editing cut the source where the literal says, so
they depend on where it was found: it stands between two places of the source, and so does each of
its fragments (`inBounds_of_mem_locate`).  This is the one thing that a stage has to know of
another.

**Candidates one by one.**  A literal that cannot be formatted is reported and the others go on, so
a failure of one stage is caught within the outcome of its candidate (`formatCandidates_eq`).
-/

namespace SqlInlay.Guarded

open SqlInlay.Text SqlInlay.Host

/-- The edit of a buffer that is one query. -/
def formatStandalone (style : Style) (buffer : Nat) (source : Text) :
    Guarded (Except Failure (Option Edit)) := do
  if isBlankText source then return .ok none
  else
    match ← formatQuery style .native source with
    | .error failure => return .error failure
    | .ok formatted =>
      let ending : Text := if source.getLast? = some '\n' then ['\n'] else []
      let whole ← spanOf buffer 0 (bytes source)
      let edit ← makeEdit source whole (formatted ++ ending)
      return .ok edit

/-- The edit of a literal. -/
def formatLiteral (style : Style) (language : Language) (source : Text) (l : Literal) :
    Guarded (Except Failure (Option Edit)) := do
  match ← decode source language l with
  | .error failure => return .error failure
  | .ok (query, hints) =>
    match ← formatQuery style l.dialect query with
    | .error failure => return .error failure
    | .ok formatted =>
      if formatted = query then return .ok none
      else
        match Host.encode style hints formatted with
        | .error failure => return .error failure
        | .ok replacement =>
          let edit ← makeEdit source l.span replacement
          return .ok edit

/-- The outcome of a candidate. -/
def formatCandidate (style : Style) (language : Language) (source : Text) :
    Candidate → Guarded Outcome
  | .literal l => do
    let edit ← formatLiteral style language source l
    return .single l.span edit
  | .skipped span failure => return .single span (.error failure)

/-- The edits that format every query of a buffer, and reports of those that cannot be. -/
def formatSource (style : Style) (mode : SourceMode) (buffer : Nat) (source : Text) :
    Guarded Outcome := do
  match mode with
  | .standalone =>
    let whole ← spanOf buffer 0 (bytes source)
    let edit ← formatStandalone style buffer source
    return .single whole edit
  | .embedded language marks =>
    let candidates ← locate buffer language marks source
    let outcomes ← candidates.mapM (formatCandidate style language source)
    return .concat outcomes

variable {style : Style} {language : Language} {source : Text}

/-- The spans of a located literal and of its fragments are those between two places of the
source. -/
lemma inBounds_of_mem_locate {buffer : Nat} {marks : Annotations} {l : Literal}
    (hl : .literal l ∈ Host.locate buffer language marks source) : InBounds source l := by
  obtain ⟨first, last, hfirst, hstands⟩ := exists_standsAt hl
  obtain ⟨hall, hordered, -, -⟩ := hstands.fragments.wellFormed
  have htext : first.text = source := hfirst.text_eq.trans (Cursor.text_start source)
  rw [htext] at hall
  refine ⟨?_, fun f hf => (hall f hf).1.cuts, hordered⟩
  rw [hstands.span]
  exact cuts_of_reaches buffer hfirst hstands.fragments.reaches

lemma formatStandalone_eq (buffer : Nat) :
    formatStandalone style buffer source = .ok (SqlInlay.formatStandalone style buffer source) := by
  have hwhole : (⟨buffer, 0, bytes source⟩ : Span).Cuts source :=
    ⟨[], source, [], by simp, rfl, by simp⟩
  simp only [formatStandalone, formatQuery_eq, ok_bind, spanOf_of_le (Nat.zero_le _),
    makeEdit_eq hwhole, SqlInlay.formatStandalone]
  split
  · rfl
  · cases Sql.formatQuery style .native source <;> rfl

lemma formatLiteral_eq {l : Literal} (h : InBounds source l) :
    formatLiteral style language source l =
      .ok (SqlInlay.formatLiteral style language source l) := by
  simp only [formatLiteral, decode_eq language h, formatQuery_eq, makeEdit_eq h.span, ok_bind,
    SqlInlay.formatLiteral]
  cases Host.decode source language l with
  | error failure => rfl
  | ok decoded =>
    obtain ⟨query, hints⟩ := decoded
    simp only [bind, Except.bind]
    cases Sql.formatQuery style l.dialect query with
    | error failure => rfl
    | ok formatted =>
      simp only
      split
      · rfl
      · cases Host.encode style hints formatted <;> rfl

/-- All candidates of a source are formatted without a trap, if all of them are in bounds. -/
lemma formatCandidates_eq {candidates : List Candidate}
    (h : ∀ l, .literal l ∈ candidates → InBounds source l) :
    candidates.mapM (formatCandidate style language source) =
      .ok (candidates.map (SqlInlay.formatCandidate style language source)) := by
  induction candidates with
  | nil => rfl
  | cons k ks ih =>
    rw [List.mapM_cons, ih fun l hl => h l (List.mem_cons_of_mem _ hl)]
    cases k with
    | literal l =>
      rw [formatCandidate, formatLiteral_eq (h l List.mem_cons_self)]
      rfl
    | skipped span failure => rfl

/-- **Formatting never traps.**  For every text, host language, set of annotations and style, the
run that checks each cut of a text, each access to a list, each difference, the order of each span
and the progress of each loop comes to its end, and with the outcome of `formatSource`. -/
theorem formatSource_guarded (style : Style) (mode : SourceMode) (buffer : Nat) (source : Text) :
    formatSource style mode buffer source =
      .ok (SqlInlay.formatSource style mode buffer source) := by
  cases mode with
  | standalone =>
    simp only [formatSource, spanOf_of_le (Nat.zero_le _), formatStandalone_eq, ok_bind]
    rfl
  | embedded language marks =>
    simp only [formatSource, locate_eq, ok_bind,
      formatCandidates_eq fun l hl => inBounds_of_mem_locate hl]
    rfl

end SqlInlay.Guarded
