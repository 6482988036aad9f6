import SqlInlay.Host.Locate
import SqlInlay.Proofs.Splice
import SqlInlay.Proofs.Text.Search

/-!
# Where literals are found

A scan only moves on, so the cursors that it hands out are ordered: `Reaches` says that one place
lies behind another in the same text.  Offsets of cursors are cuts between characters, and of two
cursors the one with the smaller offset comes first (`Cursor.Reaches.of_offset_le`).

**Fragments.**  `FragmentsAt` tells how the fragments of a literal were read: where each string
starts, what it consists of, and how the next one was found.  It is an inductive reading of the loop
over the strings of an expression, and `fragmentsAt_of_fragmentsFrom` gets it from what that loop
answers.

**Spans.**  `locate_laid` is the outcome: the spans of the literals of a source are laid out in it,
in the order in which they are found.

* `reaches_of_argumentsFrom` — arguments lie between the place that they are read from and the place
  behind their list.
* `standsAt_of_readMark` — the literal of an annotation stands between the name of the annotation
  and the place where the scan goes on.
* `locateFrom_spec` — so the literals behind a place stand one behind the other, with something in
  front of each.
-/

namespace SqlInlay.Host

open SqlInlay.Text

/-! ## Order of places -/

namespace Cursor

/-- The second place lies behind the first in the same text, or is the same.  Whether a scan comes
from the one to the other is another matter. -/
def Reaches (c d : Cursor) : Prop :=
  ∃ between, c.rest = between ++ d.rest ∧ d.passed = between.reverse ++ c.passed

variable {c d e : Cursor}

lemma Reaches.refl (c : Cursor) : c.Reaches c := ⟨[], rfl, rfl⟩

lemma Reaches.trans (h : c.Reaches d) (h' : d.Reaches e) : c.Reaches e := by
  obtain ⟨s, hs, hs'⟩ := h
  obtain ⟨t, ht, ht'⟩ := h'
  exact ⟨s ++ t, by rw [hs, ht, List.append_assoc],
    by rw [ht', hs', List.reverse_append, List.append_assoc]⟩

lemma reaches_advance (c : Cursor) (n : Nat) : c.Reaches (c.advance n) :=
  ⟨c.rest.take n, (List.take_append_drop n c.rest).symm, rfl⟩

lemma reaches_skipTrivia (c : Cursor) (language : Language) : c.Reaches (c.skipTrivia language) :=
  c.reaches_advance _

lemma offset_advance (c : Cursor) (n : Nat) :
    (c.advance n).offset = c.offset + bytes (c.rest.take n) := by
  simp [offset, advance, bytes_reverse, Nat.add_comm]

lemma advance_advance (c : Cursor) (m n : Nat) :
    (c.advance m).advance n = c.advance (m + n) := by
  simp [advance, List.take_add]

/-- Moving over an opening of what is left. -/
lemma advance_append {c : Cursor} {s t : Text} (h : c.rest = s ++ t) :
    (c.advance s.length).rest = t ∧ (c.advance s.length).offset = c.offset + bytes s := by
  have htake : c.rest.take s.length = s := by rw [h]; exact List.take_left
  refine ⟨?_, by rw [offset_advance, htake]⟩
  rw [advance, h]
  exact List.drop_left

/-- What lies between two places, and how many bytes. -/
lemma Reaches.exists_between (h : c.Reaches d) :
    ∃ between, c.rest = between ++ d.rest ∧ d.offset = c.offset + bytes between := by
  obtain ⟨s, hs, hs'⟩ := h
  exact ⟨s, hs, by rw [offset, hs', bytes_append, bytes_reverse, offset, Nat.add_comm]⟩

/-- How many bytes on a place is behind a text that lies in front of it. -/
lemma Reaches.offset_eq (h : c.Reaches d) {s : Text} (hs : c.rest = s ++ d.rest) :
    d.offset = c.offset + bytes s := by
  obtain ⟨t, ht, hoffset⟩ := h.exists_between
  rw [hs] at ht
  rw [hoffset, List.append_cancel_right ht]

lemma Reaches.text_eq (h : c.Reaches d) : d.text = c.text := by
  obtain ⟨s, hs, hs'⟩ := h
  simp [text, hs, hs']

/-- The text between two places is cut out by their offsets. -/
lemma Reaches.slice_eq (h : c.Reaches d) {s : Text} (hs : c.rest = s ++ d.rest) :
    slice c.offset d.offset c.text = s := by
  have hstart : c.offset = bytes c.passed.reverse := (bytes_reverse _).symm
  rw [h.offset_eq hs, Cursor.text, hs]
  exact slice_bytes hstart (by rw [hstart])

lemma Reaches.offset_le (h : c.Reaches d) : c.offset ≤ d.offset := by
  obtain ⟨s, -, hs⟩ := h.exists_between
  omega

/-- Of two places behind a third, the one with the smaller offset comes first. -/
lemma Reaches.of_offset_le (hd : c.Reaches d) (he : c.Reaches e) (hle : d.offset ≤ e.offset) :
    d.Reaches e := by
  obtain ⟨s, hs, hs'⟩ := hd
  obtain ⟨t, ht, ht'⟩ := he
  have hbytes : bytes s ≤ bytes t := by
    simp only [offset, hs', ht', bytes_append, bytes_reverse] at hle
    omega
  obtain ⟨m, rfl, hm⟩ := prefix_of_bytes_le (hs.symm.trans ht) hbytes
  exact ⟨m, hm, by rw [ht', hs', List.reverse_append, List.append_assoc]⟩

/-- The text up to a place behind. -/
lemma Reaches.upTo_eq (h : c.Reaches d) {s : Text} (hs : c.rest = s ++ d.rest) :
    c.upTo d.offset = s := by
  rw [upTo, h.offset_eq hs, Nat.add_sub_cancel_left, hs, takeBytes_bytes_append]

lemma Reaches.bytes_upTo (h : c.Reaches d) : c.offset + bytes (c.upTo d.offset) = d.offset := by
  obtain ⟨s, hs, hoffset⟩ := h.exists_between
  rw [h.upTo_eq hs, hoffset]

end Cursor

/-! ## Strings -/

/-- A content that is read stands in front of its closing quotes.  Where the last quotes of a run
close it, those in front of them belong to the content; but a run of quotes can be read as content
and delimiter in either order. -/
lemma prefix_of_content? (rule : ContentRule) {t content : Text}
    (hlast : rule.lastQuotes = true → ∀ c ∈ rule.delimiter, c = '"')
    (h : content? rule t = some content) : ∃ rest, t = content ++ (rule.delimiter ++ rest) := by
  fun_induction content? rule t generalizing content with
  | case1 => simp at h
  | case2 => simp at h
  | case3 c _ d u ih =>
    obtain ⟨inner, hinner, rfl⟩ := Option.map_eq_some_iff.1 h
    obtain ⟨rest, hrest⟩ := ih hinner
    exact ⟨rest, by simp [hrest]⟩
  | case4 => simp at h
  | case5 c t _ _ _ n =>
    rename_i ih
    obtain ⟨inner, hinner, rfl⟩ := Option.map_eq_some_iff.1 h
    obtain ⟨rest, hrest⟩ := ih hinner
    refine ⟨rest, ?_⟩
    simp only [List.cons_append, List.append_assoc]
    rw [← hrest, List.take_append_drop]
  | case6 c t _ _ _ behind hafter =>
    have ht := eq_append_of_after? hafter
    obtain rfl := Option.some.inj h
    split
    · rename_i hquotes
      -- quotes in front of quotes are the same text as quotes behind them
      have hdelimiter := List.eq_replicate_of_mem (hlast hquotes)
      have hrun : behind.takeWhile (· = '"') =
          List.replicate (behind.takeWhile (· = '"')).length '"' :=
        List.eq_replicate_of_mem fun c hc => by simpa using List.mem_takeWhile_imp hc
      refine ⟨behind.dropWhile (· = '"'), ?_⟩
      calc c :: t = rule.delimiter ++ behind := ht
        _ = rule.delimiter ++ (behind.takeWhile (· = '"') ++ behind.dropWhile (· = '"')) := by
          rw [List.takeWhile_append_dropWhile]
        _ = behind.takeWhile (· = '"') ++ (rule.delimiter ++ behind.dropWhile (· = '"')) := by
          rw [← List.append_assoc, ← List.append_assoc, hdelimiter, hrun,
            List.replicate_append_replicate, List.replicate_append_replicate, Nat.add_comm]
    · exact ⟨behind, ht⟩
  | case7 c t _ _ _ _ ih =>
    obtain ⟨inner, hinner, rfl⟩ := Option.map_eq_some_iff.1 h
    obtain ⟨rest, hrest⟩ := ih hinner
    exact ⟨rest, by simp [hrest]⟩

/-- The quotes of a string open it; single quotes are for Python. -/
lemma delimiter?_cases {language : Language} {t delimiter : Text}
    (h : delimiter? language t = some delimiter) :
    delimiter <+: t ∧
      (delimiter ∈ ["\"\"\"".toList, "\"".toList] ∨
        language = .python ∧ delimiter ∈ ["'''".toList, "'".toList]) := by
  unfold delimiter? at h
  split_ifs at h with h₁ h₂ h₃ h₄ <;> obtain rfl := Option.some.inj h
  · exact ⟨opensWith_iff.1 h₁, .inl (by simp)⟩
  · exact ⟨opensWith_iff.1 h₂.2, .inr ⟨h₂.1, by simp⟩⟩
  · exact ⟨opensWith_iff.1 h₃, .inl (by simp)⟩
  · exact ⟨opensWith_iff.1 h₄.2, .inr ⟨h₄.1, by simp⟩⟩

/-- Outside Python a string has double quotes. -/
lemma eq_quote_of_mem_delimiter? {language : Language} {t delimiter : Text}
    (h : delimiter? language t = some delimiter) (hpython : language ≠ .python) :
    ∀ c ∈ delimiter, c = '"' := by
  obtain ⟨-, h | h⟩ := delimiter?_cases h
  · simp only [List.mem_cons, List.not_mem_nil, or_false] at h
    rcases h with rfl | rfl <;> simp
  · exact absurd h.1 hpython

/-- The letters in front of a string open it. -/
lemma markerOf_prefix (language : Language) (before : Option Char) (t : Text) :
    markerOf language before t <+: t := by
  unfold markerOf pythonMarker
  split
  · split
    · exact List.nil_prefix
    · simp only
      split
      · split
        · exact (List.takeWhile_prefix _).trans (List.take_prefix _ _)
        · exact List.nil_prefix
      · exact List.nil_prefix
  · exact List.nil_prefix
  · exact List.nil_prefix

/-- A string that is read is what stands there. -/
lemma prefix_of_quoted? {language : Language} {before : Option Char} {t : Text} {q : Quoted}
    (h : quoted? language before t = some (some q)) : q.source <+: t := by
  obtain ⟨delimiter, hdelimiter, hq⟩ := Option.map_eq_some_iff.1 h
  obtain ⟨content, hcontent, rfl⟩ := Option.map_eq_some_iff.1 hq
  clear hq
  obtain ⟨behind, hmarker⟩ := markerOf_prefix language before t
  generalize markerOf language before t = marker at *
  have hdrop : t.drop marker.length = behind := by rw [← hmarker]; exact List.drop_left
  rw [hdrop] at hdelimiter hcontent
  obtain ⟨inside, hinside⟩ := (delimiter?_cases hdelimiter).1
  have hdrop' : behind.drop delimiter.length = inside := by rw [← hinside]; exact List.drop_left
  rw [hdrop'] at hcontent
  obtain ⟨rest, hrest⟩ := prefix_of_content? (.of language delimiter) (fun hlast => by
    refine eq_quote_of_mem_delimiter? hdelimiter fun hpython => ?_
    simp [ContentRule.of, hpython] at hlast) hcontent
  refine ⟨rest, ?_⟩
  rw [← hmarker, ← hinside, hrest]
  simp [Quoted.source, ContentRule.of]

/-! ## Fragments -/

/-- Fragments read from one place on to another: strings that are plain text, with a joiner behind
each but the last. -/
inductive FragmentsAt (buffer : Nat) (language : Language) :
    Cursor → List Fragment → Cursor → Prop
  | last {c : Cursor} {q : Quoted} (hq : quoted? language c.before c.rest = some (some q))
      (hplain : refusal? q = none) :
      FragmentsAt buffer language c [fragmentAt buffer language c q] (c.advance q.source.length)
  | cons {c following stop : Cursor} {q : Quoted} {continued : Bool} {joiner : Joiner}
      {fragments : List Fragment} (hq : quoted? language c.before c.rest = some (some q))
      (hplain : refusal? q = none)
      (hjoiner : joinerAt language continued
        ((c.advance q.source.length).skipTrivia language) = some (joiner, following))
      (h : FragmentsAt buffer language following fragments stop) :
      FragmentsAt buffer language c
        ({ fragmentAt buffer language c q with joiner := some joiner } :: fragments) stop

/-- What `fragmentsFrom` answers was read so, and does not go beyond the offset it was given; but
the white space and the comments behind it do. -/
lemma fragmentsAt_of_fragmentsFrom {buffer : Nat} {language : Language} {stop : Nat} {c : Cursor}
    {fragments : List Fragment} (h : fragmentsFrom buffer language stop c = .ok fragments) :
    ∃ d, FragmentsAt buffer language c fragments d ∧ d.offset ≤ stop ∧
      stop ≤ (d.skipTrivia language).offset := by
  fun_induction fragmentsFrom buffer language stop c generalizing fragments with
  | case1 => simp at h
  | case2 => simp at h
  | case3 => simp at h
  | case4 => simp at h
  | case5 => simp at h
  | case6 c x t hrest q hq behind hstop hplain =>
    rename_i hskip
    obtain rfl := Except.ok.inj h
    exact ⟨_, .last (hrest ▸ hq) hplain, Nat.le_of_not_lt hstop, hskip⟩
  | case7 => simp at h
  | case8 c x t hrest q hq behind hstop hplain fragment next hnext joiner following hj =>
    rename_i ih
    cases hfollowing : fragmentsFrom buffer language stop following with
    | error fault => simp [hfollowing, Except.map] at h
    | ok rest =>
      obtain ⟨d, hd, hle, hskip⟩ := ih hfollowing
      simp only [hfollowing, Except.map, Except.ok.injEq] at h
      exact ⟨d, h ▸ .cons (hrest ▸ hq) hplain hj hd, hle, hskip⟩

lemma joinerAt_reaches {language : Language} {continued : Bool} {c next : Cursor}
    {joiner : Joiner} (h : joinerAt language continued c = some (joiner, next)) :
    c.Reaches next := by
  unfold joinerAt at h
  split at h
  · simp only [Option.some.injEq, Prod.mk.injEq] at h
    rw [← h.2]
    exact (c.reaches_advance 1).trans (Cursor.reaches_skipTrivia _ language)
  · split at h
    · simp only [Option.some.injEq, Prod.mk.injEq] at h
      rw [← h.2]
      exact .refl c
    · simp at h

/-- Where the next string starts does not depend on what its joiner is called. -/
lemma joinerAt_continued {language : Language} {continued : Bool} {c next : Cursor}
    {joiner : Joiner} (h : joinerAt language continued c = some (joiner, next)) (continued' : Bool) :
    ∃ joiner', joinerAt language continued' c = some (joiner', next) := by
  unfold joinerAt at h ⊢
  split at h
  · rename_i hplus
    rw [if_pos hplus]
    exact ⟨_, h⟩
  · rename_i hplus
    split at h
    · rename_i hbeside
      rw [if_neg hplus, if_pos hbeside, (Prod.mk.inj (Option.some.inj h)).2]
      exact ⟨_, rfl⟩
    · cases h

namespace FragmentsAt

variable {buffer : Nat} {language : Language} {c d : Cursor} {fragments : List Fragment}

/-- The span of a fragment ends where its source does. -/
lemma offset_behind (buffer : Nat) {q : Quoted}
    (hq : quoted? language c.before c.rest = some (some q)) :
    (c.advance q.source.length).offset = (fragmentAt buffer language c q).span.stop := by
  obtain ⟨rest, hrest⟩ := prefix_of_quoted? hq
  exact (Cursor.advance_append hrest.symm).2

lemma reaches (h : FragmentsAt buffer language c fragments d) : c.Reaches d := by
  induction h with
  | last => exact Cursor.reaches_advance ..
  | cons hq hplain hjoiner h ih =>
    exact ((Cursor.reaches_advance ..).trans (Cursor.reaches_skipTrivia _ language)).trans
      ((joinerAt_reaches hjoiner).trans ih)

/-- Fragments start with the first and stop with the last. -/
lemma ends (h : FragmentsAt buffer language c fragments d) :
    fragments.head?.map (·.span.start) = some c.offset ∧
      fragments.getLast?.map (·.span.stop) = some d.offset := by
  induction h with
  | last hq => exact ⟨rfl, congrArg some (offset_behind _ hq).symm⟩
  | cons hq hplain hjoiner h ih =>
    refine ⟨rfl, ?_⟩
    cases h with
    | last => simpa using ih.2
    | cons => simpa using ih.2

end FragmentsAt

/-! ## Arguments -/

lemma bytes_trimEnd_le (t : Text) : bytes (trimEnd t) ≤ bytes t := by
  obtain ⟨rest, hrest⟩ := trimEndWhile_prefix isBlank t
  have hbytes := congrArg bytes hrest
  rw [bytes_append] at hbytes
  exact Nat.le.intro hbytes

/-- An argument between two places has its value there. -/
lemma reaches_of_argumentBetween {language : Language} {start d : Cursor} {a : Argument}
    (hd : start.Reaches d) (h : argumentBetween language start d.offset = some a) :
    start.Reaches a.value ∧ a.stop ≤ d.offset := by
  have hskip := start.reaches_skipTrivia language
  unfold argumentBetween at h
  simp only at h
  split at h
  · simp at h
  · rename_i hinner
    have hreach := hskip.of_offset_le hd (by omega)
    have hstop := hreach.bytes_upTo
    have htrim := bytes_trimEnd_le ((start.skipTrivia language).upTo d.offset)
    split at h
    · obtain rfl := Option.some.inj h
      refine ⟨hskip.trans ?_, by simp only; omega⟩
      simp only
      split
      · exact (Cursor.reaches_advance ..).trans (Cursor.reaches_skipTrivia ..)
      · exact Cursor.reaches_advance ..
    · obtain rfl := Option.some.inj h
      exact ⟨hskip, by simp only; omega⟩

/-- Arguments lie between the place that they are read from and the place behind them.  The
induction is along the scan, and behind a comma both places are new. -/
lemma reaches_of_argumentsFrom {language : Language} {depth : Nat} {start c stop : Cursor}
    {arguments : List Argument} (hc : start.Reaches c)
    (h : argumentsFrom language depth start c = some (arguments, stop)) :
    start.Reaches stop ∧
      ∀ a ∈ arguments, start.Reaches a.value ∧ a.stop ≤ stop.offset := by
  fun_induction argumentsFrom language depth start c generalizing arguments with
  | case1 => simp at h
  | case2 _ _ c x t _ n _ ih => exact ih (hc.trans (c.reaches_advance _)) h
  | case3 _ _ c x t _ _ _ ih => exact ih (hc.trans (c.reaches_advance _)) h
  | case4 _ _ c x t _ _ _ _ ih => exact ih (hc.trans (c.reaches_advance _)) h
  | case5 depth start c =>
    simp only [Option.some.injEq, Prod.mk.injEq] at h
    obtain ⟨rfl, rfl⟩ := h
    refine ⟨hc.trans (c.reaches_advance 1), fun a ha => ?_⟩
    obtain ⟨hvalue, hstop⟩ := reaches_of_argumentBetween hc (by simpa using ha)
    exact ⟨hvalue, hstop.trans (c.reaches_advance 1).offset_le⟩
  | case6 depth start c =>
    rename_i ih
    obtain ⟨⟨rest, stop'⟩, hrest, heq⟩ := Option.map_eq_some_iff.1 h
    simp only [Prod.mk.injEq] at heq
    obtain ⟨rfl, rfl⟩ := heq
    have hstep := hc.trans (c.reaches_advance 1)
    obtain ⟨hstop, hrest⟩ := ih (.refl _) hrest
    refine ⟨hstep.trans hstop, fun a ha => ?_⟩
    rcases List.mem_append.1 ha with ha | ha
    · obtain ⟨hvalue, hle⟩ := reaches_of_argumentBetween hc (by simpa using ha)
      exact ⟨hvalue, hle.trans ((c.reaches_advance 1).trans hstop).offset_le⟩
    · exact ⟨hstep.trans (hrest a ha).1, (hrest a ha).2⟩
  | case7 =>
    rename_i ih
    exact ih (hc.trans (Cursor.reaches_advance ..)) h

/-! ## Candidates -/

/-- The literal of a candidate that is one. -/
def Candidate.literal? : Candidate → Option Literal
  | .literal l => some l
  | .skipped _ _ => none

/-- The literals among what the annotations of a source hold. -/
def literalsOf (buffer : Nat) (language : Language) (marks : Annotations) (source : Text) :
    List Literal :=
  (locate buffer language marks source).filterMap Candidate.literal?

/-- A literal was read from one place on to another, which are the ends of its span.  White space
behind the last fragment does not belong to it. -/
structure Literal.StandsAt (buffer : Nat) (language : Language) (l : Literal)
    (first last : Cursor) :
    Prop where
  fragments : FragmentsAt buffer language first l.fragments last
  span : l.span = ⟨buffer, first.offset, last.offset⟩

/-- The query is one of the arguments. -/
lemma mem_of_queryArgument? {marks : Annotations} {arguments : List Argument} {query : Argument}
    (h : queryArgument? marks arguments = some query) : query ∈ arguments := by
  rw [queryArgument?, Option.orElse_eq_orElse, Option.orElse_eq_or, Option.or_eq_some_iff] at h
  rcases h with h | ⟨-, h⟩
  · exact List.mem_of_find?_eq_some h
  · exact List.mem_of_find?_eq_some h

/-- The literal of an annotation stands between the name of the annotation and the place where the
scan goes on. -/
lemma standsAt_of_readMark (buffer : Nat) (language : Language) (marks : Annotations) (name : Text)
    (sign head : Cursor) :
    head.Reaches (readMark buffer language marks name sign head).2 ∧
      ∀ l, (readMark buffer language marks name sign head).1 = .literal l →
        ∃ first last, head.Reaches first ∧ l.StandsAt buffer language first last ∧
          last.Reaches (readMark buffer language marks name sign head).2 := by
  have hopening := head.reaches_skipTrivia language
  unfold readMark
  simp only
  split
  · exact ⟨.refl head, by simp⟩
  · split
    · exact ⟨.refl head, by simp⟩
    · rename_i arguments stop harguments
      obtain ⟨hstop, hvalues⟩ := reaches_of_argumentsFrom (.refl _) harguments
      have hinside := hopening.trans (Cursor.reaches_advance _ 1)
      split
      · exact ⟨hinside.trans hstop, by simp⟩
      · rename_i query hquery
        refine ⟨hinside.trans hstop, fun l hl => ?_⟩
        obtain ⟨hvalue, hle⟩ := hvalues query (mem_of_queryArgument? hquery)
        cases hfragments : fragmentsFrom buffer language query.stop query.value with
        | error obstacle => simp [hfragments, candidateOf] at hl
        | ok fragments =>
          obtain ⟨last, hlast, hlastStop, -⟩ := fragmentsAt_of_fragmentsFrom hfragments
          obtain ⟨hfirst, hend⟩ := hlast.ends
          simp only [hfragments, candidateOf, hfirst, hend, Option.getD_some,
            Candidate.literal.injEq] at hl
          refine ⟨query.value, last, hinside.trans hvalue, ⟨?_, ?_⟩, ?_⟩
          · rw [← hl]
            exact hlast
          · rw [← hl]
          · exact (hvalue.trans hlast.reaches).of_offset_le hstop (hlastStop.trans hle)

/-- Spans behind a place are laid out from any earlier place on. -/
lemma laid_of_reaches {c d : Cursor} {spans : List Span} (h : c.Reaches d)
    (hd : Laid d.offset d.rest spans) : Laid c.offset c.rest spans := by
  obtain ⟨between, hrest, hoffset⟩ := h.exists_between
  rw [hrest]
  exact .skip (hoffset ▸ hd)

/-- A span between two places, something having been passed before it, goes in front of spans that
are laid out behind. -/
lemma laid_cons {buffer : Nat} {c first last d : Cursor} {spans : List Span}
    (hfirst : c.Reaches first) (hlt : c.offset < first.offset) (hlast : first.Reaches last)
    (hd : last.Reaches d) (h : Laid d.offset d.rest spans) :
    Laid c.offset c.rest (⟨buffer, first.offset, last.offset⟩ :: spans) := by
  obtain ⟨gap, hgap, hstart⟩ := hfirst.exists_between
  obtain ⟨covered, hcovered, hstop⟩ := hlast.exists_between
  rw [hgap, hcovered]
  refine .cons (fun hnil => ?_) hstart hstop (laid_of_reaches hd h)
  rw [hnil, bytes_nil] at hstart
  omega

/-- The literals behind a place: their spans are laid out in order behind it, and each literal
stands between two cursors that are reached from it.  The induction is along the scan, which goes on
behind what an annotation has been read as. -/
lemma locateFrom_spec {buffer : Nat} {language : Language} {marks : Annotations} (c : Cursor) :
    Laid c.offset c.rest
        (((locateFrom buffer language marks c).filterMap Candidate.literal?).map (·.span)) ∧
      ∀ l ∈ (locateFrom buffer language marks c).filterMap Candidate.literal?,
        ∃ first last, c.Reaches first ∧ l.StandsAt buffer language first last := by
  fun_induction locateFrom buffer language marks c with
  | case1 => exact ⟨.nil, by simp⟩
  | case2 c x t hc n _ ih =>
    have hstep := c.reaches_advance (n + 1)
    refine ⟨laid_of_reaches hstep ih.1, fun l hl => ?_⟩
    obtain ⟨first, last, hfirst, hl⟩ := ih.2 l hl
    exact ⟨first, last, hstep.trans hfirst, hl⟩
  | case3 c x t hc _ n _ name head _ read ih =>
    have hhead := c.reaches_advance (n + 1)
    have hlt : c.offset < head.offset := by
      rw [Cursor.offset_advance, hc, List.take_succ_cons, bytes_cons]
      have := x.utf8Size_pos
      omega
    obtain ⟨hread, hliteral⟩ := standsAt_of_readMark buffer language marks name c head
    have hrest : ∀ l ∈ (locateFrom buffer language marks read.2).filterMap Candidate.literal?,
        ∃ first last, c.Reaches first ∧ l.StandsAt buffer language first last := by
      intro l hl
      obtain ⟨first, last, hfirst, hl⟩ := ih.2 l hl
      exact ⟨first, last, (hhead.trans hread).trans hfirst, hl⟩
    cases hcandidate : read.1 with
    | skipped span failure =>
      simp only [List.filterMap_cons, Candidate.literal?]
      exact ⟨laid_of_reaches (hhead.trans hread) ih.1, hrest⟩
    | literal l =>
      obtain ⟨first, last, hfirst, hl, hlast⟩ := hliteral l hcandidate
      simp only [List.filterMap_cons, Candidate.literal?, List.map_cons, hl.span]
      refine ⟨laid_cons (hhead.trans hfirst) (hlt.trans_le hfirst.offset_le)
        hl.fragments.reaches hlast ih.1, fun m hm => ?_⟩
      rcases List.mem_cons.1 hm with rfl | hm
      · exact ⟨first, last, hhead.trans hfirst, hl⟩
      · exact hrest m hm
  | case4 c x t hc _ n _ name head _ ih =>
    have hstep := c.reaches_advance (n + 1)
    refine ⟨laid_of_reaches hstep ih.1, fun l hl => ?_⟩
    obtain ⟨first, last, hfirst, hl⟩ := ih.2 l hl
    exact ⟨first, last, hstep.trans hfirst, hl⟩
  | case5 c x t hc _ _ _ ih =>
    have hstep := c.reaches_advance 1
    refine ⟨laid_of_reaches hstep ih.1, fun l hl => ?_⟩
    obtain ⟨first, last, hfirst, hl⟩ := ih.2 l hl
    exact ⟨first, last, hstep.trans hfirst, hl⟩

/-- **The literals of a source** are laid out in it, in the order in which they are found.  Their
spans fall between characters and stand apart, so edits within them can be carried out together. -/
theorem locate_laid (buffer : Nat) (language : Language) (marks : Annotations) (source : Text) :
    Laid 0 source ((literalsOf buffer language marks source).map (·.span)) :=
  (locateFrom_spec (.start source)).1

/-- A literal of a source stands somewhere in it. -/
lemma exists_standsAt {buffer : Nat} {language : Language} {marks : Annotations} {source : Text}
    {l : Literal} (h : .literal l ∈ locate buffer language marks source) :
    ∃ first last, (Cursor.start source).Reaches first ∧ l.StandsAt buffer language first last :=
  (locateFrom_spec (.start source)).2 l (List.mem_filterMap.2 ⟨_, h, rfl⟩)

end SqlInlay.Host
