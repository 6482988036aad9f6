import Mathlib.Data.List.Basic
import Mathlib.Tactic.Common
import SqlInlay.Text

/-!
# Cutting a text at byte offsets

Scanners count characters and spans count bytes, and the two meet where a text is cut.  A byte
offset that counts the bytes of a prefix cuts the text behind that prefix.  All offsets that
scanners hand out are of this form, so what they cut is given by how the text splits.

* `takeBytes_bytes_append` and `dropBytes_bytes_append` are the two sides of a cut, and
  `isBoundary_bytes_append` says that it falls between characters.
* `slice_bytes` is a part between two cuts.
* `prefix_of_bytes_le` goes back from bytes to texts: openings of one text are compared by their
  bytes.  No character is empty (`bytes_pos`), so openings of as many bytes are the same.
-/

namespace SqlInlay.Text

lemma bytes_eq_zero {t : Text} : bytes t = 0 ↔ t = [] := by
  cases t with
  | nil => simp
  | cons c t =>
    have := c.utf8Size_pos
    simp only [bytes_cons, reduceCtorEq, iff_false]
    omega

lemma bytes_pos {t : Text} (h : t ≠ []) : 0 < bytes t :=
  Nat.pos_of_ne_zero fun hz => h (bytes_eq_zero.1 hz)

lemma bytes_reverse (t : Text) : bytes t.reverse = bytes t := by
  induction t with
  | nil => rfl
  | cons c t ih => simp [ih, Nat.add_comm]

lemma takeBytes_bytes_append (s t : Text) : takeBytes (bytes s) (s ++ t) = s := by
  induction s with
  | nil => cases t <;> simp [takeBytes]
  | cons c s ih =>
    have := c.utf8Size_pos
    simp only [List.cons_append, bytes_cons, takeBytes]
    rw [if_neg (by omega), Nat.add_sub_cancel_left, ih]

lemma dropBytes_bytes_append (s t : Text) : dropBytes (bytes s) (s ++ t) = t := by
  induction s with
  | nil => cases t <;> simp [dropBytes]
  | cons c s ih =>
    have := c.utf8Size_pos
    simp only [List.cons_append, bytes_cons, dropBytes]
    rw [if_neg (by omega), Nat.add_sub_cancel_left, ih]

lemma isBoundary_bytes_append (s t : Text) : isBoundary (bytes s) (s ++ t) = true := by
  induction s with
  | nil => cases t <;> simp [isBoundary]
  | cons c s ih =>
    have := c.utf8Size_pos
    simp only [List.cons_append, bytes_cons]
    obtain ⟨n, hn⟩ : ∃ n, c.utf8Size + bytes s = n + 1 := ⟨c.utf8Size + bytes s - 1, by omega⟩
    have hrest : n + 1 - c.utf8Size = bytes s := by omega
    simp only [hn, isBoundary, hrest, ih, Bool.and_true, decide_eq_true_eq]
    omega

/-- A slice between the ends of a part is that part. -/
lemma slice_bytes {s m t : Text} {start stop : Nat} (hstart : start = bytes s)
    (hstop : stop = bytes s + bytes m) : slice start stop (s ++ (m ++ t)) = m := by
  subst hstart hstop
  rw [slice, dropBytes_bytes_append, Nat.add_sub_cancel_left, takeBytes_bytes_append]

/-- Of two openings of one text, the one of fewer bytes opens the other. -/
lemma prefix_of_bytes_le {s s' t t' : Text} (h : s ++ t = s' ++ t') (hle : bytes s ≤ bytes s') :
    ∃ m, s' = s ++ m ∧ t = m ++ t' := by
  rcases List.append_eq_append_iff.1 h with ⟨m, hs', ht⟩ | ⟨m, hs, ht'⟩
  · exact ⟨m, hs', ht⟩
  · have hbytes := congrArg bytes hs
    rw [bytes_append] at hbytes
    obtain rfl := bytes_eq_zero.1 (by omega : bytes m = 0)
    exact ⟨[], by simpa using hs.symm, by simpa using ht'.symm⟩

end SqlInlay.Text
