/-!
# Texts and the bytes they take

Everything this library reads and writes is a `Text`, a list of characters: lists are what the
scanners recurse on and what a proof about them inducts over.

**Offsets count bytes.**  Editors address a buffer by UTF-8 bytes, so every offset, span and length
is a number of bytes.  `bytes` is that measure, `dropBytes`, `takeBytes` and `slice` cut a text by
it, and `isBoundary` says where a cut falls between two characters.  A cut at any other offset has a
result as well, so whoever depends on the cut asks for the boundary first.

**Lines.**  `lines` separates a text at its line feeds and `unlines` puts them back; `unlines_lines`
says that nothing is lost on the way.
-/

namespace SqlInlay

/-- A text: its characters in order. -/
abbrev Text := List Char

instance : Coe String Text := ⟨String.toList⟩

namespace Text

/-! ## Byte offsets -/

/-- The number of bytes of a text in UTF-8. -/
def bytes : Text → Nat
  | [] => 0
  | c :: t => c.utf8Size + bytes t

/-- What follows the first `n` bytes; a character that starts before the cut is dropped whole. -/
def dropBytes : Nat → Text → Text
  | _, [] => []
  | n, c :: t => if n = 0 then c :: t else dropBytes (n - c.utf8Size) t

/-- The first `n` bytes; a character that starts before the cut is taken whole. -/
def takeBytes : Nat → Text → Text
  | _, [] => []
  | n, c :: t => if n = 0 then [] else c :: takeBytes (n - c.utf8Size) t

/-- The text between two byte offsets. -/
def slice (start stop : Nat) (t : Text) : Text :=
  takeBytes (stop - start) (dropBytes start t)

/-- A byte offset that falls between two characters, or at either end. -/
def isBoundary : Nat → Text → Bool
  | 0, _ => true
  | _ + 1, [] => false
  | n + 1, c :: t => c.utf8Size ≤ n + 1 && isBoundary (n + 1 - c.utf8Size) t

@[simp] theorem bytes_nil : bytes [] = 0 := rfl

@[simp] theorem bytes_cons (c : Char) (t : Text) : bytes (c :: t) = c.utf8Size + bytes t := rfl

@[simp] theorem bytes_append (s t : Text) : bytes (s ++ t) = bytes s + bytes t := by
  induction s with
  | nil => simp
  | cons c s ih => simp [ih, Nat.add_assoc]

/-! ## Openings and searches -/

/-- What follows `head` where a text opens with it. -/
def after? : Text → Text → Option Text
  | [], t => some t
  | _ :: _, [] => none
  | h :: head, c :: t => if h = c then after? head t else none

/-- The text opens with `head`. -/
def opensWith (head t : Text) : Bool := (after? head t).isSome

/-- The text ends with `tail`. -/
def closesWith (tail t : Text) : Bool := opensWith tail.reverse t.reverse

/-- The number of characters before the first occurrence of `needle`. -/
def find? (needle : Text) : Text → Option Nat
  | [] => if needle.isEmpty then some 0 else none
  | c :: t => if opensWith needle (c :: t) then some 0 else (find? needle t).map (· + 1)

/-- `needle` occurs in the text. -/
def contains (needle t : Text) : Bool := (find? needle t).isSome

theorem eq_append_of_after? {head t rest : Text} (h : after? head t = some rest) :
    t = head ++ rest := by
  induction head generalizing t with
  | nil => simpa [after?] using h
  | cons a head ih =>
    cases t with
    | nil => simp [after?] at h
    | cons c t =>
      by_cases hc : a = c
      · simp only [after?, hc, if_true] at h
        simp [hc, ih h]
      · simp [after?, hc] at h

/-! ## ASCII letters -/

/-- The text with its ASCII letters raised. -/
def asciiUpper (t : Text) : Text := t.map Char.toUpper

/-- Equality up to the case of ASCII letters. -/
def sameLetters (s t : Text) : Bool := asciiUpper s == asciiUpper t

/-! ## Lines -/

/-- The pieces between separators; always at least one. -/
def splitAt (sep : Char) : Text → List Text
  | [] => [[]]
  | c :: t =>
    match splitAt sep t with
    | [] => [[c]]
    | piece :: pieces => if c = sep then [] :: piece :: pieces else (c :: piece) :: pieces

/-- The lines of a text, without their line feeds; a text with no line feed is one line. -/
def lines (t : Text) : List Text := splitAt '\n' t

/-- Lines joined by line feeds. -/
def unlines : List Text → Text
  | [] => []
  | [l] => l
  | l :: ls => l ++ '\n' :: unlines ls

theorem splitAt_ne_nil (sep : Char) (t : Text) : splitAt sep t ≠ [] := by
  cases t with
  | nil => simp [splitAt]
  | cons c t =>
    unfold splitAt
    split
    · simp
    · split <;> simp

theorem unlines_cons_cons (c : Char) (l : Text) (ls : List Text) :
    unlines ((c :: l) :: ls) = c :: unlines (l :: ls) := by
  cases ls <;> simp [unlines]

/-- Joining the lines of a text gives the text back. -/
theorem unlines_lines (t : Text) : unlines (lines t) = t := by
  unfold lines
  induction t with
  | nil => rfl
  | cons c t ih =>
    unfold splitAt
    split
    · rename_i h; exact absurd h (splitAt_ne_nil _ _)
    · rename_i piece pieces h
      rw [h] at ih
      by_cases hc : c = '\n'
      · simp [hc, unlines, ih]
      · simp [hc, unlines_cons_cons, ih]

/-- `n` copies of a character. -/
def fill (n : Nat) (c : Char) : Text := List.replicate n c

/-- The number of line feeds. -/
def lineFeeds (t : Text) : Nat := t.count '\n'

end Text

end SqlInlay
