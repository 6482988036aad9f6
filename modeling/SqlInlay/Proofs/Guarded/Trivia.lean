import SqlInlay.Proofs.Guarded.Access
import SqlInlay.Proofs.Host.Separators

/-!
# Comments and white space, by offsets

Stepping over comments and white space with nothing but a text and an offset into it: every look at
the text is a checked cut, the depth of a block comment is a checked counter, and both loops have to
get on.  Each definition is followed by what it comes to at the offset of a cursor, which is where
the cursor comes to stand.

* `peek_offset` and `bump_offset` are about one character.
* `skipLine_eq` is about a line.  The line feed is searched for, and what is found is where counting
  characters stops (`find?_lineFeed`).
* `skipBlockComment_eq` is about block comments, nested or not.
* `skipComment_eq` puts comments together, for each language the kinds that it has.
* `skipTrivia_eq` is the loop over all of it.

**Depth.**  A block comment is counted down only behind its opening: `skipBlockComment_eq` carries
along that something is open, or that the place stands on an opening.  So the counter never falls
below zero, although a text may well hold more marks that close than marks that open.

**Bytes.**  Marks of comments are of ASCII, and a place behind two of their characters is two bytes
further on.  Anything else is passed by the size of its character.
-/

namespace SqlInlay.Guarded

open SqlInlay.Text SqlInlay.Host

/-! ## One character -/

/-- The first character at a place. -/
def peek (t : Text) (pos : Nat) : Guarded (Option Char) := do
  return (← sliceFrom t pos).head?

/-- The place behind the first character; the place itself at the end. -/
def bump (t : Text) (pos : Nat) : Guarded Nat := do
  match ← peek t pos with
  | some x => return pos + x.utf8Size
  | none => return pos

@[simp] lemma peek_offset (c : Cursor) : peek c.text c.offset = .ok c.rest.head? := by
  simp [peek]

@[simp] lemma bump_offset (c : Cursor) : bump c.text c.offset = .ok (c.advance 1).offset := by
  simp only [bump, peek_offset, ok_bind]
  cases hrest : c.rest with
  | nil => simp [Cursor.offset_advance, hrest]
  | cons x t => simp [offset_advance_one hrest]

/-! ## Lines -/

/-- The place in front of the next line feed, or the end. -/
def skipLine (t : Text) (pos : Nat) : Guarded Nat := do
  let rest ← sliceFrom t pos
  match find? "\n" rest with
  | some n => return pos + bytes (rest.take n)
  | none => return bytes t

lemma find?_lineFeed (t : Text) :
    find? "\n" t = if '\n' ∈ t then some (lineLength t) else none := by
  induction t with
  | nil => rfl
  | cons x t ih =>
    by_cases hx : x = '\n'
    · simp [find?, opensWith, after?, lineLength, hx]
    · have hopens : opensWith "\n" (x :: t) = false := by simp [opensWith, after?, Ne.symm hx]
      simp only [find?, hopens, ih, lineLength, List.mem_cons, Ne.symm hx, hx, false_or,
        List.takeWhile_cons, decide_not, decide_false, Bool.not_false, if_true, List.length_cons,
        Bool.false_eq_true, if_false]
      split <;> rfl

lemma skipLine_eq (c : Cursor) :
    skipLine c.text c.offset = .ok (c.advance (lineLength c.rest)).offset := by
  simp only [skipLine, sliceFrom_offset, ok_bind, find?_lineFeed]
  by_cases hline : '\n' ∈ c.rest
  · simp [hline, Cursor.offset_advance]
  · have hall : c.rest.takeWhile (· ≠ '\n') = c.rest := by
      rw [List.takeWhile_eq_self_iff]
      rintro x hx
      simp only [ne_eq, decide_not, Bool.not_eq_true', decide_eq_false_iff_not]
      rintro rfl
      exact hline hx
    rw [if_neg hline, lineLength, hall, Cursor.offset_advance, List.take_length,
      offset_add_bytes_rest]
    rfl

/-! ## Block comments

`blockLength` recurses on the text, two characters at a time where a mark is found.  The lemmas on
how it unfolds are the cases of a round, in their order.
-/

/-- One round over a block comment: a place and the comments that are open there. -/
def blockCommentRound (nested : Bool) (t : Text) : Nat × Nat → Guarded (Step (Nat × Nat) Nat)
  | (pos, depth) => do
    if pos < bytes t then
      let rest ← sliceFrom t pos
      if opensWith "/*" rest && (depth == 0 || nested) then return .again (pos + 2, depth + 1)
      else if opensWith "*/" rest then
        let depth ← subtract depth 1
        if depth = 0 then return .leave (pos + 2) else return .again (pos + 2, depth)
      else return .again (← bump t pos, depth)
    else return .leave pos

/-- The place behind a block comment; the end if it is never closed. -/
def skipBlockComment (nested : Bool) (t : Text) (pos : Nat) : Guarded Nat :=
  scan (blockCommentRound nested) t pos 0

/-- A text opens with two characters. -/
lemma opensWith_pair {a b : Char} {t : Text} :
    opensWith [a, b] t = true ↔ ∃ u, t = a :: b :: u := by
  rw [opensWith_iff]
  exact ⟨fun ⟨u, hu⟩ => ⟨u, hu.symm⟩, fun ⟨u, hu⟩ => ⟨u, hu.symm⟩⟩

/-- The place behind two characters of one byte each. -/
lemma offset_advance_pair {c : Cursor} {a b : Char} {u : Text} (hrest : c.rest = a :: b :: u)
    (ha : a.utf8Size = 1) (hb : b.utf8Size = 1) : (c.advance 2).offset = c.offset + 2 := by
  simp [Cursor.offset_advance, hrest, ha, hb]

lemma blockLength_open {nested : Bool} {depth : Nat} (u : Text) (h : depth = 0 ∨ nested = true) :
    blockLength nested depth ('/' :: '*' :: u) = 2 + blockLength nested (depth + 1) u := by
  rw [blockLength, if_pos ⟨rfl, rfl, h⟩]

lemma blockLength_close (nested : Bool) (depth : Nat) (u : Text) :
    blockLength nested depth ('*' :: '/' :: u) =
      if depth ≤ 1 then 2 else 2 + blockLength nested (depth - 1) u := by
  rw [blockLength, if_neg (by simp), if_pos ⟨rfl, rfl⟩]

/-- A character that neither opens nor closes is passed on its own.  It may be part of a mark whose
other character is missing. -/
lemma blockLength_cons {nested : Bool} {depth : Nat} {x : Char} {t : Text}
    (hopen : ¬ (opensWith "/*" (x :: t) && (depth == 0 || nested)) = true)
    (hclose : ¬ opensWith "*/" (x :: t) = true) :
    blockLength nested depth (x :: t) = 1 + blockLength nested depth t := by
  cases t with
  | nil => rfl
  | cons y u =>
    rw [blockLength, if_neg, if_neg]
    · rintro ⟨rfl, rfl⟩
      exact hclose (opensWith_pair.2 ⟨u, rfl⟩)
    · rintro ⟨rfl, rfl, hdepth⟩
      refine hopen ?_
      have hopens : opensWith "/*" ('/' :: '*' :: u) = true := opensWith_pair.2 ⟨u, rfl⟩
      rw [hopens]
      simpa using hdepth

lemma skipBlockComment_eq (nested : Bool) {c : Cursor} (hopen : opensWith "/*" c.rest = true) :
    skipBlockComment nested c.text c.offset =
      .ok (c.advance (blockLength nested 0 c.rest)).offset := by
  refine scan_eq_ok (fun c depth => (c.advance (blockLength nested depth c.rest)).offset)
    (fun c depth => 0 < depth ∨ opensWith "/*" c.rest = true) ?_ (.inr hopen)
  rintro c depth hinv
  by_cases hend : c.rest = []
  · have hstop : ¬ c.offset < bytes c.text := by rw [offset_lt_bytes_iff, not_not]; exact hend
    left
    simp [blockCommentRound, hstop, hend, blockLength, Cursor.offset_advance]
  have hgo : c.offset < bytes c.text := (offset_lt_bytes_iff c).2 hend
  simp only [blockCommentRound, hgo, if_true, sliceFrom_offset, ok_bind]
  -- a round passes an opening, a closing or one character
  by_cases hopens : (opensWith "/*" c.rest && (depth == 0 || nested)) = true
  · obtain ⟨hopens', hdepth⟩ := Bool.and_eq_true_iff.1 hopens
    obtain ⟨u, hu : c.rest = '/' :: '*' :: u⟩ := opensWith_pair.1 hopens'
    have hoffset := offset_advance_pair hu rfl rfl
    refine .inr ⟨c.advance 2, depth + 1, c.reaches_advance 2, by omega, .inl (by omega), ?_, ?_⟩
    · rw [Cursor.advance_advance, rest_advance, hu,
        blockLength_open u (by simpa using hdepth)]
      rfl
    · simp only [hopens, if_true, pure_eq_ok, hoffset]
  · rw [if_neg hopens]
    by_cases hcloses : opensWith "*/" c.rest = true
    · obtain ⟨u, hu : c.rest = '*' :: '/' :: u⟩ := opensWith_pair.1 hcloses
      have hoffset := offset_advance_pair hu rfl rfl
      have hpos : 1 ≤ depth := hinv.resolve_right fun h => by
        obtain ⟨v, hv : c.rest = '/' :: '*' :: v⟩ := opensWith_pair.1 h
        simp [hu] at hv
      rw [if_pos hcloses, subtract_of_le hpos, hu, blockLength_close]
      simp only [ok_bind, pure_eq_ok]
      by_cases hlast : depth - 1 = 0
      · left
        rw [if_pos hlast, if_pos (by omega), hoffset]
      · rw [if_neg hlast, if_neg (by omega)]
        refine .inr ⟨c.advance 2, depth - 1, c.reaches_advance 2, by omega, .inl (by omega), ?_,
          by rw [hoffset]⟩
        rw [Cursor.advance_advance, rest_advance, hu]
        rfl
    · obtain ⟨x, t, hrest⟩ := List.exists_cons_of_ne_nil hend
      rw [if_neg hcloses]
      refine .inr ⟨c.advance 1, depth, c.reaches_advance 1, offset_lt_advance (by omega) hend,
        ?_, ?_, by simp⟩
      · by_cases hdepth : depth = 0
        · subst hdepth
          exact absurd (by simpa using hinv) (by simpa using hopens)
        · exact .inl (by omega)
      · rw [hrest] at hopens hcloses
        rw [Cursor.advance_advance, rest_advance, hrest, blockLength_cons hopens hcloses]
        rfl

/-! ## Comments -/

/-- The place behind a comment that opens with a slash, if there is one. -/
def skipSlashComment (nested : Bool) (t : Text) (pos : Nat) : Guarded (Option Nat) := do
  let rest ← sliceFrom t pos
  if opensWith "//" rest then return some (← skipLine t pos)
  else if opensWith "/*" rest then return some (← skipBlockComment nested t pos)
  else return none

/-- The place behind a comment, if there is one. -/
def skipComment (language : Language) (t : Text) (pos : Nat) : Guarded (Option Nat) := do
  match language with
  | .python =>
    if opensWith "#" (← sliceFrom t pos) then return some (← skipLine t pos) else return none
  | .java => skipSlashComment false t pos
  | .kotlin => skipSlashComment true t pos

/-- A text opens with a character. -/
lemma opensWith_one {a x : Char} {t : Text} : opensWith [a] (x :: t) = true ↔ x = a := by
  rw [opensWith_iff]
  exact ⟨fun ⟨u, hu⟩ => (List.cons.inj hu).1.symm, fun h => ⟨t, by rw [h]; rfl⟩⟩

/-- The line of a comment goes as far as the line behind its first character. -/
lemma skipLine_cons {c : Cursor} {x : Char} {t : Text} (hrest : c.rest = x :: t) (hx : x ≠ '\n') :
    skipLine c.text c.offset = .ok (c.advance (lineLength t + 1)).offset := by
  have hlength : lineLength (x :: t) = lineLength t + 1 := by simp [lineLength, hx]
  rw [skipLine_eq, hrest, hlength]

lemma skipSlashComment_eq (language : Language) (hlanguage : language ≠ .python) {c : Cursor}
    {x : Char} {t : Text} (hrest : c.rest = x :: t) :
    skipSlashComment (language == .kotlin) c.text c.offset =
      .ok ((commentTail? language x t).map fun n => (c.advance (n + 1)).offset) := by
  simp only [skipSlashComment, sliceFrom_offset, ok_bind]
  by_cases hline : opensWith "//" c.rest = true
  · obtain ⟨u, hu : c.rest = '/' :: '/' :: u⟩ := opensWith_pair.1 hline
    obtain ⟨rfl, rfl⟩ := List.cons.inj (hrest.symm.trans hu)
    have htail : commentTail? language '/' ('/' :: u) = some (lineLength ('/' :: u)) := by
      cases language <;> first | rfl | exact absurd rfl hlanguage
    rw [if_pos hline, skipLine_cons hrest (by decide), htail]
    rfl
  by_cases hblock : opensWith "/*" c.rest = true
  · obtain ⟨u, hu : c.rest = '/' :: '*' :: u⟩ := opensWith_pair.1 hblock
    obtain ⟨rfl, rfl⟩ := List.cons.inj (hrest.symm.trans hu)
    have htail : commentTail? language '/' ('*' :: u) =
        some (blockLength (language == .kotlin) 0 ('/' :: '*' :: u) - 1) := by
      cases language <;> first | rfl | exact absurd rfl hlanguage
    have hlength : blockLength (language == .kotlin) 0 ('/' :: '*' :: u) - 1 + 1 =
        blockLength (language == .kotlin) 0 ('/' :: '*' :: u) := by
      rw [blockLength_open u (.inl rfl)]
      omega
    rw [if_neg hline, if_pos hblock, skipBlockComment_eq _ hblock, htail, Option.map_some, hlength,
      hrest]
    rfl
  · have htail : commentTail? language x t = none := by
      rw [hrest] at hline hblock
      by_contra hread
      obtain ⟨k, hk⟩ := Option.ne_none_iff_exists'.1 hread
      obtain ⟨rfl, ⟨u, rfl, -⟩ | ⟨u, rfl, -⟩⟩ := commentTail?_slash hlanguage hk
      · exact hline (opensWith_pair.2 ⟨u, rfl⟩)
      · exact hblock (opensWith_pair.2 ⟨u, rfl⟩)
    rw [if_neg hline, if_neg hblock, htail]
    rfl

lemma skipComment_eq (language : Language) {c : Cursor} {x : Char} {t : Text}
    (hrest : c.rest = x :: t) :
    skipComment language c.text c.offset =
      .ok ((commentTail? language x t).map fun n => (c.advance (n + 1)).offset) := by
  cases language with
  | java => exact skipSlashComment_eq .java (by decide) hrest
  | kotlin => exact skipSlashComment_eq .kotlin (by decide) hrest
  | python =>
    simp only [skipComment, sliceFrom_offset, ok_bind, commentTail?]
    by_cases hx : x = '#'
    · rw [if_pos (hrest ▸ opensWith_one.2 hx), if_pos hx, skipLine_cons hrest (by rw [hx]; decide)]
      rfl
    · rw [if_neg fun h => hx (opensWith_one.1 (hrest ▸ h)), if_neg hx]
      rfl

/-! ## White space and comments

Beside the place, the loop hands on whether a line was carried on: Python takes a line break behind
a backslash for white space, and what joins two strings depends on it.
-/

/-- One round over white space and comments: a place, and whether a line has been carried on. -/
def triviaRound (language : Language) (t : Text) :
    Nat × Bool → Guarded (Step (Nat × Bool) (Nat × Bool))
  | (pos, continued) => do
    match ← peek t pos with
    | none => return .leave (pos, continued)
    | some x =>
      if isBlank x then return .again (← bump t pos, continued)
      else if x = '\\' ∧ language = .python then
        match lineBreakLength? (← sliceFrom (← sliceFrom t pos) 1) with
        | none => return .leave (pos, continued)
        | some lineBreak => return .again (pos + 1 + lineBreak, true)
      else
        match ← skipComment language t pos with
        | none => return .leave (pos, continued)
        | some next => return .again (next, continued)

/-- The place behind white space and comments, and whether a line was carried on there. -/
def skipTrivia (language : Language) (t : Text) (pos : Nat) : Guarded (Nat × Bool) :=
  scan (triviaRound language) t pos false

/-- A line break takes a byte for each of its characters. -/
lemma bytes_take_lineBreak {t : Text} {n : Nat} (h : lineBreakLength? t = some n) :
    bytes (t.take n) = n := by
  unfold lineBreakLength? at h
  split at h <;> cases h <;> rfl

lemma skipTrivia_eq (language : Language) (c : Cursor) :
    skipTrivia language c.text c.offset =
      .ok ((c.skipTrivia language).offset, (trivia language c.rest).2) := by
  refine (scan_eq_ok
    (fun c continued =>
      ((c.skipTrivia language).offset, continued || (trivia language c.rest).2))
    (fun _ _ => True) ?_ trivial).trans (by rw [Bool.false_or])
  rintro c continued -
  simp only [triviaRound, peek_offset, ok_bind]
  cases hrest : c.rest with
  | nil =>
    left
    simp [Cursor.skipTrivia, hrest, trivia, Cursor.offset_advance]
  | cons x t =>
    have hne : c.rest ≠ [] := by simp [hrest]
    simp only [List.head?_cons, Cursor.skipTrivia, hrest]
    rw [trivia]
    by_cases hblank : isBlank x = true
    · refine .inr ⟨c.advance 1, continued, c.reaches_advance 1,
        offset_lt_advance (by omega) hne, trivial, ?_, by simp [hblank]⟩
      rw [if_pos hblank, rest_advance, hrest, Cursor.advance_advance, Nat.add_comm 1]
      rfl
    rw [if_neg hblank, if_neg hblank]
    by_cases hslash : x = '\\' ∧ language = .python
    · rw [if_pos hslash, if_pos hslash]
      obtain ⟨rfl, rfl⟩ := hslash
      have hafter : sliceFrom ('\\' :: t) 1 = .ok t := sliceFrom_append ['\\'] t
      simp only [sliceFrom_offset, ok_bind, hrest, hafter]
      cases hbreak : lineBreakLength? t with
      | none =>
        left
        simp [Cursor.offset_advance]
      | some n =>
        have hoffset : (c.advance (n + 1)).offset = c.offset + 1 + n := by
          rw [Cursor.offset_advance, hrest, List.take_succ_cons, bytes_cons,
            bytes_take_lineBreak hbreak]
          exact (Nat.add_assoc _ _ _).symm
        refine .inr ⟨c.advance (n + 1), true, c.reaches_advance _,
          offset_lt_advance (by omega) hne, trivial, ?_, by rw [hoffset]; rfl⟩
        rw [rest_advance, hrest, Cursor.advance_advance, List.drop_succ_cons]
        simp only [Bool.true_or, Bool.or_true, Prod.mk.injEq, and_true]
        congr 2
        omega
    rw [if_neg hslash, if_neg hslash, skipComment_eq language hrest]
    cases hcomment : commentTail? language x t with
    | none =>
      left
      simp [Cursor.offset_advance]
    | some n =>
      refine .inr ⟨c.advance (n + 1), continued, c.reaches_advance _,
        offset_lt_advance (by omega) hne, trivial, ?_, rfl⟩
      rw [rest_advance, hrest, Cursor.advance_advance, List.drop_succ_cons]
      simp only [Prod.mk.injEq, and_true]
      congr 2
      omega

end SqlInlay.Guarded
