import SqlInlay.Text

/-!
# White space

`isBlank` is the White_Space property of Unicode, the sense in which query text and host source
are trimmed and in which a line counts as blank.  The SQL lexer and the host languages name their
own smaller sets of blanks where they use them.
-/

namespace SqlInlay.Text

/-- A character with the White_Space property. -/
def isBlank (c : Char) : Bool :=
  let n := c.toNat
  (9 ≤ n && n ≤ 13) || n == 0x20 || n == 0x85 || n == 0xA0 || n == 0x1680
    || (0x2000 ≤ n && n ≤ 0x200A) || n == 0x2028 || n == 0x2029 || n == 0x202F || n == 0x205F
    || n == 0x3000

/-- A control character: the two blocks of control codes below U+00A0. -/
def isControl (c : Char) : Bool := c.toNat < 0x20 || (0x7F ≤ c.toNat && c.toNat < 0xA0)

/-- A text of white space only. -/
def isBlankText (t : Text) : Bool := t.all isBlank

/-- Without the white space at the start. -/
def trimStart (t : Text) : Text := t.dropWhile isBlank

/-- Without the characters of a class at the end. -/
def trimEndWhile (p : Char → Bool) (t : Text) : Text := (t.reverse.dropWhile p).reverse

/-- Without the white space at the end. -/
def trimEnd (t : Text) : Text := trimEndWhile isBlank t

/-- Without the white space at both ends. -/
def trim (t : Text) : Text := trimEnd (trimStart t)

end SqlInlay.Text
