import SqlInlay.Text

/-!
# A place in a text

A `Cursor` is a place in a text: the characters passed, nearest first, and the characters left.  All
scanning of host source looks at what is left and moves a cursor on by a number of characters, so
the text that a cursor stands in never changes (`text_advance`) and a move of at least one character
is progress (`length_rest_advance`).

**Offsets** are counted from what was passed, so a cursor has one and a scan need not carry it
along.  It always falls between two characters.
-/

namespace SqlInlay.Host

/-- A place in a text. -/
structure Cursor where
  /-- The characters before the place, nearest first. -/
  passed : Text
  /-- The characters behind it. -/
  rest : Text
deriving DecidableEq, Repr

namespace Cursor

/-- The start of a text. -/
def start (t : Text) : Cursor := ⟨[], t⟩

/-- The text that the cursor stands in. -/
def text (c : Cursor) : Text := c.passed.reverse ++ c.rest

/-- The byte offset of the place. -/
def offset (c : Cursor) : Nat := Text.bytes c.passed

/-- The character just before the place. -/
def before (c : Cursor) : Option Char := c.passed.head?

/-- The place `n` characters further on. -/
def advance (c : Cursor) (n : Nat) : Cursor :=
  ⟨(c.rest.take n).reverse ++ c.passed, c.rest.drop n⟩

/-- The text from here to a later offset. -/
def upTo (c : Cursor) (stop : Nat) : Text := Text.takeBytes (stop - c.offset) c.rest

@[simp] theorem text_start (t : Text) : (start t).text = t := by simp [start, text]

@[simp] theorem text_advance (c : Cursor) (n : Nat) : (c.advance n).text = c.text := by
  simp [advance, text, List.append_assoc, List.take_append_drop]

@[simp] theorem length_rest_advance (c : Cursor) (n : Nat) :
    (c.advance n).rest.length = c.rest.length - n := by
  simp [advance]

/-- Moving by at least one character leaves less of the text. -/
theorem advance_lt {c : Cursor} {n : Nat} (hn : 0 < n) (hc : c.rest ≠ []) :
    (c.advance n).rest.length < c.rest.length := by
  have := List.length_pos_iff.2 hc
  rw [length_rest_advance]
  omega

end Cursor

end SqlInlay.Host
