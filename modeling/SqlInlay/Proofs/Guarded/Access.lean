import SqlInlay.Proofs.Host.Places

/-!
# Runs that check what they do

The scanners of this library recurse on what is left of a text, so nothing in them can miss.  A
program that works on offsets and counters can: it can cut a text out of range or inside a
character, ask a list for an element that it does not have, take more from a counter than there is,
or go round a loop without getting on.  The definitions below do all of that with a check, and a
check that fails ends the run with a `Trap`.

**Runs.**  A run is `Guarded`: it ends in a trap or has a result.  What is shown of a guarded
definition is always that it has a result, and which one: the value of the scanner that does the
same by recursion.  So everything proved of the scanner is proved of the run, and that no check
fails comes with it.

**Failures and traps.**  A failure, such as a comment that is never closed, is a result like any
other, and a trap is none.  The two never mix, for the type of a run that may fail is a guarded
`Except`.

**Places.**  A cursor is a place of a text where a cut is allowed, since what is in front of it are
whole characters.  The lemmas on cursors say what the checked accesses give there, so a scanner is
followed from cursor to cursor and no offset is ever looked at by itself.

**Loops.**  `loop` goes round only as long as every round moves a place on, and not beyond an end.
That is a check, too, and not only a measure for termination: a program without it would run on.
`loop_eq_ok` is how a loop is followed: a round either leaves with the value that is expected, or
goes on from where the same value is expected; `scan_eq_ok` is the case of a text read by a cursor.
-/

namespace SqlInlay.Guarded

open SqlInlay.Text SqlInlay.Host

/-- What ends a run before it has a result: the ways in which an access, a counter, a loop or an
assumption of a program can go wrong. -/
inductive Trap where
  /-- A cut of a text, out of range or inside a character. -/
  | cut
  /-- An element or a part of a list that is not there. -/
  | index
  /-- A counter below zero. -/
  | underflow
  /-- A round of a loop that did not get on. -/
  | stall
  /-- A condition that was taken for granted. -/
  | assertion
deriving DecidableEq, Repr

end Guarded

/-- A run with checks. -/
abbrev Guarded (α : Type) := Except Guarded.Trap α

namespace Guarded

open SqlInlay.Text SqlInlay.Host

variable {α β : Type}

@[simp] lemma pure_eq_ok (a : α) : (pure a : Guarded α) = .ok a := rfl

/-! ## Checks

Each access is checked for what it needs and for nothing more, and behind the definitions there is a
lemma for each that says when the check passes.
-/

/-- The text from an offset on. -/
def sliceFrom (t : Text) (start : Nat) : Guarded Text :=
  if isBoundary start t then .ok (dropBytes start t) else .error .cut

/-- The text up to an offset. -/
def sliceTo (t : Text) (stop : Nat) : Guarded Text :=
  if isBoundary stop t then .ok (takeBytes stop t) else .error .cut

/-- The text between two offsets. -/
def slice (t : Text) (start stop : Nat) : Guarded Text :=
  if start ≤ stop ∧ isBoundary start t ∧ isBoundary stop t then .ok (Text.slice start stop t)
  else .error .cut

/-- A difference of two numbers. -/
def subtract (m n : Nat) : Guarded Nat := if n ≤ m then .ok (m - n) else .error .underflow

/-- An element of a list. -/
def elementAt (l : List α) (i : Nat) : Guarded α :=
  match l[i]? with
  | some a => .ok a
  | none => .error .index

/-- A list from a place on. -/
def listFrom (l : List α) (start : Nat) : Guarded (List α) :=
  if start ≤ l.length then .ok (l.drop start) else .error .index

/-- A list up to a place. -/
def listTo (l : List α) (stop : Nat) : Guarded (List α) :=
  if stop ≤ l.length then .ok (l.take stop) else .error .index

/-- A span, whose start is not behind its end. -/
def spanOf (buffer start stop : Nat) : Guarded Span :=
  if start ≤ stop then .ok ⟨buffer, start, stop⟩ else .error .assertion

lemma sliceFrom_append (s t : Text) : sliceFrom (s ++ t) (bytes s) = .ok t := by
  rw [sliceFrom, if_pos (isBoundary_bytes_append s t), dropBytes_bytes_append]

lemma sliceTo_append (s t : Text) : sliceTo (s ++ t) (bytes s) = .ok s := by
  rw [sliceTo, if_pos (isBoundary_bytes_append s t), takeBytes_bytes_append]

/-- A cut behind two openings of a text, one of which goes on where the other ends. -/
lemma slice_append (s m t : Text) : slice (s ++ m ++ t) (bytes s) (bytes (s ++ m)) = .ok m := by
  have hstart : isBoundary (bytes s) (s ++ m ++ t) := by
    rw [List.append_assoc]
    exact isBoundary_bytes_append s (m ++ t)
  have hle : bytes s ≤ bytes (s ++ m) := by simp
  rw [slice, if_pos ⟨hle, hstart, isBoundary_bytes_append (s ++ m) t⟩, List.append_assoc,
    slice_bytes rfl (bytes_append s m)]

lemma subtract_of_le {m n : Nat} (h : n ≤ m) : subtract m n = .ok (m - n) := if_pos h

lemma elementAt_of_lt {l : List α} {i : Nat} (h : i < l.length) : elementAt l i = .ok l[i] := by
  rw [elementAt, List.getElem?_eq_getElem h]

lemma listFrom_of_le {l : List α} {start : Nat} (h : start ≤ l.length) :
    listFrom l start = .ok (l.drop start) := if_pos h

lemma listTo_of_le {l : List α} {stop : Nat} (h : stop ≤ l.length) :
    listTo l stop = .ok (l.take stop) := if_pos h

lemma spanOf_of_le {buffer start stop : Nat} (h : start ≤ stop) :
    spanOf buffer start stop = .ok ⟨buffer, start, stop⟩ := if_pos h

/-! ## Cursors

The offset of a cursor is a place where its text may be cut. -/

section Cursors

variable {c d : Cursor}

@[simp] lemma sliceFrom_offset (c : Cursor) : sliceFrom c.text c.offset = .ok c.rest := by
  rw [Cursor.text, Cursor.offset, ← bytes_reverse, sliceFrom_append]

/-- What is left at a place further on. -/
lemma sliceFrom_advance (c : Cursor) (n : Nat) :
    sliceFrom c.text (c.advance n).offset = .ok (c.rest.drop n) := by
  rw [← Cursor.text_advance c n, sliceFrom_offset, Cursor.advance]

lemma sliceTo_offset (c : Cursor) : sliceTo c.text c.offset = .ok c.passed.reverse := by
  rw [Cursor.text, Cursor.offset, ← bytes_reverse, sliceTo_append]

/-- The character before a place is the last of the text up to it. -/
lemma before_eq_getLast? (c : Cursor) : c.passed.reverse.getLast? = c.before := by
  rw [List.getLast?_reverse, Cursor.before]

/-- The text that is left up to some offset. -/
lemma slice_of_rest {s t : Text} (hrest : c.rest = s ++ t) :
    slice c.text c.offset (c.offset + bytes s) = .ok s := by
  have htext : c.text = c.passed.reverse ++ s ++ t := by
    rw [Cursor.text, hrest, List.append_assoc]
  have hstart : c.offset = bytes c.passed.reverse := (bytes_reverse _).symm
  rw [htext, hstart, ← bytes_append, slice_append]

/-- The text between two places. -/
lemma slice_offset (h : c.Reaches d) : slice c.text c.offset d.offset = .ok (c.upTo d.offset) := by
  obtain ⟨between, hrest, hoffset⟩ := h.exists_between
  rw [h.upTo_eq hrest, hoffset, slice_of_rest hrest]

lemma offset_add_bytes_rest (c : Cursor) : c.offset + bytes c.rest = bytes c.text := by
  rw [Cursor.text, bytes_append, bytes_reverse, Cursor.offset]

lemma offset_le (c : Cursor) : c.offset ≤ bytes c.text := by
  have := offset_add_bytes_rest c
  omega

/-- Something is left behind a place that is not the end. -/
lemma offset_lt_bytes_iff (c : Cursor) : c.offset < bytes c.text ↔ c.rest ≠ [] := by
  have hsum := offset_add_bytes_rest c
  rw [Ne, ← bytes_eq_zero]
  omega

/-- Moving by at least one character is progress. -/
lemma offset_lt_advance {n : Nat} (hn : 0 < n) (hc : c.rest ≠ []) :
    c.offset < (c.advance n).offset := by
  have htake : c.rest.take n ≠ [] := by simpa [List.take_eq_nil_iff] using ⟨by omega, hc⟩
  have := bytes_pos htake
  rw [Cursor.offset_advance]
  omega

/-- The place behind the first character left. -/
lemma offset_advance_one {x : Char} {t : Text} (h : c.rest = x :: t) :
    (c.advance 1).offset = c.offset + x.utf8Size := by
  rw [Cursor.offset_advance, h]
  simp

lemma rest_advance (c : Cursor) (n : Nat) : (c.advance n).rest = c.rest.drop n := rfl

end Cursors

/-! ## Loops

The value that is expected is a function of the state.  It plays the part of an invariant: each
round hands it on, and the round that leaves returns it.
-/

/-- What one round of a loop comes to. -/
inductive Step (σ ρ : Type) where
  /-- Another round, from a new state. -/
  | again (state : σ)
  /-- The end of the loop. -/
  | leave (result : ρ)

variable {σ ρ : Type}

/-- Rounds from a state on until one leaves.  Each round has to move the place of the state on, and
not beyond `stop`; one that does not is a stall. -/
def loop (stop : Nat) (place : σ → Nat) (step : σ → Guarded (Step σ ρ)) (s : σ) : Guarded ρ :=
  match step s with
  | .error trap => .error trap
  | .ok (.leave r) => .ok r
  | .ok (.again next) =>
    if _h : place s < place next ∧ place next ≤ stop then loop stop place step next
    else .error .stall
termination_by stop - place s
decreasing_by omega

/-- A loop has the value that every round either leaves with or hands on, along with the invariant,
to a state that has got on. -/
theorem loop_eq_ok {stop : Nat} {place : σ → Nat} {step : σ → Guarded (Step σ ρ)}
    {γ : Type} (view : γ → σ) (value : γ → ρ) (Inv : γ → Prop)
    (hstep : ∀ g, Inv g → step (view g) = .ok (.leave (value g)) ∨
      ∃ g', Inv g' ∧ value g' = value g ∧ step (view g) = .ok (.again (view g')) ∧
        place (view g) < place (view g') ∧ place (view g') ≤ stop)
    (g : γ) (hg : Inv g) : loop stop place step (view g) = .ok (value g) := by
  induction hmeasure : stop - place (view g) using Nat.strong_induction_on generalizing g with
  | _ n ih =>
    rw [loop]
    obtain hleave | ⟨g', hg', hvalue, hagain, hlt, hle⟩ := hstep g hg
    · simp only [hleave]
    · simp only [hagain, hlt, hle, and_self, dite_true, ← hvalue]
      exact ih (stop - place (view g')) (by omega) g' hg' rfl

/-- A loop that reads a text from a place on, along with some state.  The place has to get on, and
may not leave the text. -/
def scan (round : Text → Nat × σ → Guarded (Step (Nat × σ) ρ)) (t : Text) (pos : Nat) (s : σ) :
    Guarded ρ :=
  loop (bytes t) Prod.fst (round t) (pos, s)

/-- A loop that reads a text follows a cursor: each round leaves with the value of where it starts
from, or hands on to a place behind with the same value.  `view` is the state of the loop where what
is followed has one that tells more. -/
theorem scan_view_eq_ok {round : Text → Nat × σ → Guarded (Step (Nat × σ) ρ)} {γ : Type}
    (view : γ → σ) (value : Cursor → γ → ρ) (Inv : Cursor → γ → Prop)
    (hround : ∀ c g, Inv c g → round c.text (c.offset, view g) = .ok (.leave (value c g)) ∨
      ∃ d g', c.Reaches d ∧ c.offset < d.offset ∧ Inv d g' ∧ value d g' = value c g ∧
        round c.text (c.offset, view g) = .ok (.again (d.offset, view g')))
    {c : Cursor} {g : γ} (h : Inv c g) : scan round c.text c.offset (view g) = .ok (value c g) := by
  refine loop_eq_ok (fun p : Cursor × γ => (p.1.offset, view p.2)) (fun p => value p.1 p.2)
    (fun p => p.1.text = c.text ∧ Inv p.1 p.2) ?_ (c, g) ⟨rfl, h⟩
  rintro ⟨d, g⟩ ⟨htext, hinv⟩
  simp only at htext
  rw [← htext]
  refine (hround d g hinv).imp id ?_
  rintro ⟨e, g', hreach, hlt, hinv', hvalue, hagain⟩
  exact ⟨(e, g'), ⟨hreach.text_eq, hinv'⟩, hvalue, hagain, hlt, hreach.text_eq ▸ offset_le e⟩

/-- The same for a loop whose own state tells enough. -/
theorem scan_eq_ok {round : Text → Nat × σ → Guarded (Step (Nat × σ) ρ)}
    (value : Cursor → σ → ρ) (Inv : Cursor → σ → Prop)
    (hround : ∀ c s, Inv c s → round c.text (c.offset, s) = .ok (.leave (value c s)) ∨
      ∃ d s', c.Reaches d ∧ c.offset < d.offset ∧ Inv d s' ∧ value d s' = value c s ∧
        round c.text (c.offset, s) = .ok (.again (d.offset, s')))
    {c : Cursor} {s : σ} (h : Inv c s) : scan round c.text c.offset s = .ok (value c s) :=
  scan_view_eq_ok id value Inv hround h

end Guarded

end SqlInlay
