import Mathlib.Data.List.Basic
import Mathlib.Data.List.TakeWhile
import Mathlib.Tactic.Common
import SqlInlay.Text.Blank

/-!
# Openings, searches and trimming

What the searches of `SqlInlay.Text` find, said with `++`, so that texts can be taken apart where
something was found and the parts be put together again.

* **Openings.**  A text opens with a prefix if it is the prefix and something behind it
  (`opensWith_iff`), and `after?` gives what is behind (`after?_append`).
* **Occurrences.**  One that `find?` reports splits the text around the needle (`exists_of_find?`),
  and a text contains what it can be split around (`contains_iff`).
* **Trimming** cuts off an end that is all of one class (`exists_eq_trimEndWhile_append`), and what
  it leaves is a prefix that does not end in the class.  So trimming again changes nothing.
-/

namespace SqlInlay.Text

/-! ## Openings -/

@[simp] lemma after?_append (head t : Text) : after? head (head ++ t) = some t := by
  induction head with
  | nil => rfl
  | cons a head ih => simpa [after?] using ih

lemma opensWith_iff {head t : Text} : opensWith head t = true ↔ head <+: t := by
  rw [opensWith, Option.isSome_iff_exists]
  constructor
  · rintro ⟨rest, h⟩
    exact ⟨rest, (eq_append_of_after? h).symm⟩
  · rintro ⟨rest, rfl⟩
    exact ⟨rest, after?_append head rest⟩

lemma after?_eq_none_iff {head t : Text} : after? head t = none ↔ ¬ head <+: t := by
  rw [← opensWith_iff, opensWith, Bool.not_eq_true, Option.isSome_eq_false_iff,
    Option.isNone_iff_eq_none]

/-! ## Occurrences -/

/-- A reported occurrence splits the text around the needle. -/
lemma exists_of_find? {needle t : Text} {n : Nat} (h : find? needle t = some n) :
    ∃ front back, t = front ++ needle ++ back ∧ front.length = n := by
  induction t generalizing n with
  | nil =>
    simp only [find?] at h
    split at h
    · rename_i hempty
      obtain rfl : 0 = n := by simpa using h
      exact ⟨[], [], by simp [List.isEmpty_iff.1 hempty], rfl⟩
    · simp at h
  | cons c t ih =>
    simp only [find?] at h
    split at h
    · rename_i hopens
      obtain rfl : 0 = n := by simpa using h
      obtain ⟨back, hback⟩ := opensWith_iff.1 hopens
      exact ⟨[], back, by simpa using hback.symm, rfl⟩
    · obtain ⟨m, hm, rfl⟩ := Option.map_eq_some_iff.1 h
      obtain ⟨front, back, rfl, rfl⟩ := ih hm
      exact ⟨c :: front, back, by simp, by simp⟩

/-- A needle occurs where the text can be split around it. -/
lemma contains_iff {needle t : Text} : contains needle t = true ↔ needle <:+: t := by
  rw [contains, Option.isSome_iff_exists]
  constructor
  · rintro ⟨n, h⟩
    obtain ⟨front, back, h, -⟩ := exists_of_find? h
    exact ⟨front, back, h.symm⟩
  · rintro ⟨front, back, rfl⟩
    induction front with
    | nil =>
      cases needle with
      | nil => cases back <;> simp [find?, opensWith, after?]
      | cons a needle =>
        exact ⟨0, if_pos (opensWith_iff.2 ⟨back, rfl⟩)⟩
    | cons c front ih =>
      obtain ⟨n, hn⟩ := ih
      simp only [List.cons_append, find?]
      split
      · exact ⟨0, rfl⟩
      · simp only [List.append_assoc] at hn
        exact ⟨n + 1, by simp [hn]⟩

/-! ## Trimming -/

/-- What trimming leaves is a prefix. -/
lemma trimEndWhile_prefix (p : Char → Bool) (t : Text) : trimEndWhile p t <+: t := by
  rw [trimEndWhile, ← List.reverse_suffix, List.reverse_reverse]
  exact List.dropWhile_suffix _

/-- What trimming takes is all of the class. -/
lemma exists_eq_trimEndWhile_append (p : Char → Bool) (t : Text) :
    ∃ tail, t = trimEndWhile p t ++ tail ∧ ∀ c ∈ tail, p c = true := by
  refine ⟨(t.reverse.takeWhile p).reverse, ?_, ?_⟩
  · rw [trimEndWhile, ← List.reverse_append, List.takeWhile_append_dropWhile,
      List.reverse_reverse]
  · intro c hc
    exact List.mem_takeWhile_imp (List.mem_reverse.1 hc)

/-- What trimming leaves does not end in the class. -/
lemma not_of_mem_getLast?_trimEndWhile {p : Char → Bool} {t : Text} {c : Char}
    (h : c ∈ (trimEndWhile p t).getLast?) : p c = false := by
  rw [trimEndWhile, List.getLast?_reverse] at h
  have hhead := List.head?_dropWhile_not p t.reverse
  rw [Option.mem_def.1 h] at hhead
  simpa using hhead

/-- Trimming keeps all up to a character outside the class. -/
lemma trimEndWhile_append_cons {p : Char → Bool} (s t : Text) {c : Char} (hc : p c = false) :
    trimEndWhile p (s ++ c :: t) = s ++ trimEndWhile p (c :: t) := by
  have hdrop : ∀ l r : Text, (l ++ c :: r).dropWhile p = (l ++ [c]).dropWhile p ++ r := by
    intro l r
    induction l with
    | nil => simp [hc]
    | cons d l ih => by_cases hd : p d <;> simp_all
  rw [trimEndWhile, trimEndWhile, List.reverse_append, List.reverse_cons, List.append_assoc,
    List.singleton_append, hdrop, List.reverse_append, List.reverse_reverse]

lemma trimEndWhile_of_getLast? {p : Char → Bool} {t : Text}
    (h : ∀ c ∈ t.getLast?, p c = false) : trimEndWhile p t = t := by
  rcases List.eq_nil_or_concat t with rfl | ⟨s, c, rfl⟩
  · rfl
  · have hc : p c = false := h c (by simp)
    simp [trimEndWhile, hc]

/-- Trimming cuts off an end that is all of the class. -/
lemma trimEndWhile_append {p : Char → Bool} {s t : Text} (ht : ∀ c ∈ t, p c = true) :
    trimEndWhile p (s ++ t) = trimEndWhile p s := by
  rw [trimEndWhile, List.reverse_append, List.dropWhile_append_of_pos]
  · rfl
  · exact fun c hc => ht c (List.mem_reverse.1 hc)

/-- Blanks at the end make no difference. -/
lemma trim_append {s t : Text} (ht : ∀ c ∈ t, isBlank c = true) : trim (s ++ t) = trim s := by
  have hstart : ∀ t : Text, (∀ c ∈ t, isBlank c = true) → t.dropWhile isBlank = [] := fun t ht =>
    List.dropWhile_eq_nil_iff.2 ht
  by_cases hs : ∀ c ∈ s, isBlank c = true
  · rw [trim, trim, trimStart, trimStart, hstart s hs, hstart _ (List.forall_mem_append.2 ⟨hs, ht⟩)]
  · have hdrop : (s ++ t).dropWhile isBlank = s.dropWhile isBlank ++ t := by
      rw [List.dropWhile_append, if_neg]
      simpa using hs
    rw [trim, trim, trimStart, trimStart, hdrop]
    exact trimEndWhile_append ht

end SqlInlay.Text
