import SqlInlay.Proofs.Text.Search

/-!
# Lines of a text

Blocks are read and written line by line: a text is separated into lines, something is done to each,
and they are joined again.  `lines` and `unlines` are inverse to each other, as long as the lines
hold no line feeds (`lines_unlines`).

**Separating** goes by the first character: a line feed starts a new line (`lines_newline`), and any
other character belongs to the first one (`lines_cons`).  A text has at least one line, which is
empty if the text is.

**Joining** lines that end in empty ones comes to what the others are joined to, up to line feeds at
the end (`trimEndWhile_unlines_append_replicate`).  So where line feeds at the end are cut off, as
they are from a page, empty lines at the end make no difference.
-/

namespace SqlInlay.Text

/-! ## Separating -/

lemma lines_ne_nil (t : Text) : lines t ≠ [] := splitAt_ne_nil '\n' t

lemma lines_newline (t : Text) : lines ('\n' :: t) = [] :: lines t := by
  obtain ⟨l, ls, hls⟩ := List.exists_cons_of_ne_nil (lines_ne_nil t)
  rw [hls]
  unfold lines at hls ⊢
  simp [splitAt, hls]

/-- A character other than a line feed belongs to the first line. -/
lemma lines_cons {c : Char} (hc : c ≠ '\n') {t l : Text} {ls : List Text}
    (h : lines t = l :: ls) : lines (c :: t) = (c :: l) :: ls := by
  unfold lines at h ⊢
  simp [splitAt, h, hc]

lemma not_mem_of_mem_lines {t l : Text} (h : l ∈ lines t) : '\n' ∉ l := by
  induction t generalizing l with
  | nil =>
    obtain rfl := List.mem_singleton.1 h
    simp
  | cons c t ih =>
    by_cases hc : c = '\n'
    · subst hc
      rw [lines_newline] at h
      rcases List.mem_cons.1 h with rfl | h
      · simp
      · exact ih h
    · obtain ⟨first, rest, hls⟩ := List.exists_cons_of_ne_nil (lines_ne_nil t)
      rw [lines_cons hc hls] at h
      rcases List.mem_cons.1 h with rfl | h
      · have hfirst := ih (hls ▸ List.mem_cons_self ..)
        simp [Ne.symm hc, hfirst]
      · exact ih (hls ▸ List.mem_cons_of_mem _ h)

/-- A line is made of characters of the text. -/
lemma subset_of_mem_lines {t l : Text} (h : l ∈ lines t) : l ⊆ t := by
  induction t generalizing l with
  | nil =>
    obtain rfl := List.mem_singleton.1 h
    exact List.Subset.refl _
  | cons c t ih =>
    by_cases hc : c = '\n'
    · subst hc
      rw [lines_newline] at h
      rcases List.mem_cons.1 h with rfl | h
      · exact List.nil_subset _
      · exact List.subset_cons_of_subset _ (ih h)
    · obtain ⟨first, rest, hls⟩ := List.exists_cons_of_ne_nil (lines_ne_nil t)
      rw [lines_cons hc hls] at h
      rcases List.mem_cons.1 h with rfl | h
      · exact List.cons_subset_cons _ (ih (hls ▸ List.mem_cons_self ..))
      · exact List.subset_cons_of_subset _ (ih (hls ▸ List.mem_cons_of_mem _ h))

/-- A text without line feeds is the rest of the first line. -/
lemma lines_append {s t l : Text} {ls : List Text} (hs : '\n' ∉ s) (h : lines t = l :: ls) :
    lines (s ++ t) = (s ++ l) :: ls := by
  induction s with
  | nil => exact h
  | cons c s ih =>
    simp only [List.mem_cons, not_or] at hs
    exact lines_cons (Ne.symm hs.1) (ih hs.2)

/-! ## Joining -/

lemma unlines_cons {l : Text} {ls : List Text} (hne : ls ≠ []) :
    unlines (l :: ls) = l ++ '\n' :: unlines ls := by
  obtain ⟨m, ms, rfl⟩ := List.exists_cons_of_ne_nil hne
  rfl

lemma unlines_concat {ls : List Text} (hne : ls ≠ []) (l : Text) :
    unlines (ls ++ [l]) = unlines ls ++ '\n' :: l := by
  induction ls with
  | nil => exact absurd rfl hne
  | cons m ls ih =>
    rcases ls with _ | ⟨k, ks⟩
    · rfl
    · calc unlines (m :: (k :: ks ++ [l]))
          = m ++ '\n' :: unlines (k :: ks ++ [l]) := rfl
        _ = m ++ '\n' :: unlines (k :: ks) ++ '\n' :: l := by rw [ih (by simp)]; simp

/-- Joined lines are separated again. -/
lemma lines_unlines {ls : List Text} (hne : ls ≠ []) (h : ∀ l ∈ ls, '\n' ∉ l) :
    lines (unlines ls) = ls := by
  induction ls with
  | nil => exact absurd rfl hne
  | cons l ls ih =>
    rw [List.forall_mem_cons] at h
    by_cases hls : ls = []
    · subst hls
      have hline := lines_append (t := []) h.1 rfl
      simpa [unlines] using hline
    · have hrest := lines_newline (unlines ls)
      rw [unlines_cons hls, lines_append h.1 hrest, ih hls h.2, List.append_nil]

/-- Empty lines at the end are line feeds at the end. -/
lemma trimEndWhile_unlines_append_replicate (ls : List Text) (n : Nat) :
    trimEndWhile (· == '\n') (unlines (ls ++ List.replicate n [])) =
      trimEndWhile (· == '\n') (unlines ls) := by
  induction n with
  | zero => simp
  | succ n ih =>
    rw [List.replicate_succ', ← List.append_assoc]
    by_cases hne : ls ++ List.replicate n ([] : Text) = []
    · rw [hne] at ih ⊢
      exact ih
    · rw [unlines_concat hne, trimEndWhile_append (by simp), ih]

end SqlInlay.Text
