import Mathlib.Data.List.Forall2
import SqlInlay.Proofs.Text.Lines

/-!
# Taking blanks away

`Thinned` relates a text to what is left of it when some blanks are taken away.  Taking off margins,
blank lines and blanks at the ends of lines is of this kind, and so is undoing the insertion of
margins.  One relation for all of these has the advantage that they can be chained in any order
(`Thinned.trans`) and done to parts of a text (`Thinned.append`).

**What stays.**  A part without blanks stays together (`Thinned.infix_of`), and a text that loses
nothing in length is the same text (`Thinned.eq_of_length`).  The first says of closing quotes in a
text into which blanks were put that they were there before, so a layout brings no quotes together;
the second is for round trips, where nothing may be lost.

**Lines** may be thinned one by one (`Thinned.unlines`), and a blank line at either end may go with
its line feed, which is a blank, too.
-/

namespace SqlInlay.Text

/-- The second text is the first without some of its blanks.  Which ones they are is not recorded,
and there may be several ways from one text to another. -/
inductive Thinned : Text → Text → Prop
  | nil : Thinned [] []
  | keep {c : Char} {t u : Text} (h : Thinned t u) : Thinned (c :: t) (c :: u)
  | drop {c : Char} {t u : Text} (hc : isBlank c = true) (h : Thinned t u) : Thinned (c :: t) u

namespace Thinned

variable {s t u v w : Text}

lemma refl (t : Text) : Thinned t t := by
  induction t with
  | nil => exact .nil
  | cons c t ih => exact .keep ih

lemma append (h : Thinned s t) (h' : Thinned u v) : Thinned (s ++ u) (t ++ v) := by
  induction h with
  | nil => exact h'
  | keep h ih => exact .keep ih
  | drop hc h ih => exact .drop hc ih

/-- A blank text may go. -/
lemma of_isBlankText (ht : isBlankText t = true) : Thinned t [] := by
  induction t with
  | nil => exact .nil
  | cons c t ih =>
    simp only [isBlankText, List.all_cons, Bool.and_eq_true] at ht
    exact .drop ht.1 (ih ht.2)

lemma trans (h : Thinned s t) (h' : Thinned t u) : Thinned s u := by
  induction h generalizing u with
  | nil => exact h'
  | keep h ih =>
    cases h' with
    | keep h' => exact .keep (ih h')
    | drop hc h' => exact .drop hc (ih h')
  | drop hc h ih => exact .drop hc (ih h')

lemma sublist (h : Thinned t u) : List.Sublist u t := by
  induction h with
  | nil => exact .slnil
  | keep h ih => exact ih.cons_cons _
  | drop hc h ih => exact ih.cons _

/-- A text that loses nothing in length stays the same. -/
lemma eq_of_length (h : Thinned t u) (hlength : t.length ≤ u.length) : u = t :=
  h.sublist.eq_of_length_le hlength

/-- An opening without blanks stays. -/
lemma prefix_of (h : Thinned t u) (hw : ∀ c ∈ w, isBlank c = false) (hbegins : w <+: t) :
    w <+: u := by
  induction h generalizing w with
  | nil => exact hbegins
  | @keep c t u h ih =>
    cases w with
    | nil => exact List.nil_prefix
    | cons d w =>
      rw [List.forall_mem_cons] at hw
      rw [List.cons_prefix_cons] at hbegins ⊢
      exact ⟨hbegins.1, ih hw.2 hbegins.2⟩
  | @drop c t u hc h ih =>
    cases w with
    | nil => exact List.nil_prefix
    | cons d w =>
      rw [List.cons_prefix_cons] at hbegins
      have hd := hw d (List.mem_cons_self ..)
      rw [hbegins.1, hc] at hd
      cases hd

/-- A part without blanks stays together. -/
lemma infix_of (h : Thinned t u) (hw : ∀ c ∈ w, isBlank c = false) (hholds : w <:+: t) :
    w <:+: u := by
  induction h with
  | nil => exact hholds
  | @keep c t u h ih =>
    rcases List.infix_cons_iff.1 hholds with hbegins | hholds
    · exact ((Thinned.keep h).prefix_of hw hbegins).isInfix
    · exact (ih hholds).trans (List.suffix_cons c u).isInfix
  | @drop c t u hc h ih =>
    rcases List.infix_cons_iff.1 hholds with hbegins | hholds
    · exact ((Thinned.drop hc h).prefix_of hw hbegins).isInfix
    · exact ih hholds

/-! ## Lines -/

/-- Lines may be thinned one by one. -/
lemma unlines {ls ms : List Text} (h : List.Forall₂ Thinned ls ms) :
    Thinned (unlines ls) (unlines ms) := by
  induction h with
  | nil => exact .nil
  | @cons l m ls ms hl h ih =>
    cases h with
    | nil => exact hl
    | cons => exact hl.append (.keep ih)

/-- A blank line at the start may go. -/
lemma unlines_cons {l : Text} (hl : isBlankText l = true) (ls : List Text) :
    Thinned (Text.unlines (l :: ls)) (Text.unlines ls) := by
  cases ls with
  | nil => exact of_isBlankText hl
  | cons => exact (of_isBlankText hl).append (.drop rfl (.refl _))

/-- A blank line at the end may go. -/
lemma unlines_concat {l : Text} (hl : isBlankText l = true) (ls : List Text) :
    Thinned (Text.unlines (ls ++ [l])) (Text.unlines ls) := by
  by_cases hls : ls = []
  · subst hls
    exact of_isBlankText hl
  · rw [Text.unlines_concat hls]
    have hend := (Thinned.refl (Text.unlines ls)).append
      (Thinned.drop (c := '\n') rfl (of_isBlankText hl))
    rwa [List.append_nil] at hend

end Thinned

end SqlInlay.Text
