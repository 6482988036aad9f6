import SqlInlay.Proofs.Guarded.Trivia
import SqlInlay.Proofs.Host.Extents

/-!
# Strings and character literals, by offsets

Reading a string with nothing but a text and an offset into it.  What follows a backslash may take
several bytes or be the end, a template may never close, and the closing quotes of a run are found
by looking three bytes on; each of these looks is a checked cut.

* `markerLength_eq` — the letters in front are counted, and take one byte each.
* `templateEnd_eq` — braces are counted down only behind an opening one, so the counter never runs
  below zero.
* `closingQuotes_eq` — a run of quotes is passed as long as a quote follows the three at hand, and
  then the last three of it are found.
* `contentEnd_eq` — the loop over a content.  A round leaves at the closing quotes, or moves on over
  an escape, a template or a character (`contentRound_cons`).
* `charScan_eq` — the loop over a character literal.

**Parts.**  `readString` answers with the offsets of the parts of a string.  They are those of the
`Quoted` that stands at the cursor: `rawOf`.  `readString_eq` says so, and `skipSealed_eq` what
follows for all that a scan passes at once.
-/

namespace SqlInlay.Guarded

open SqlInlay.Text SqlInlay.Host

/-- Characters of one byte each take as many bytes as there are of them. -/
lemma bytes_eq_length {t : Text} (h : ∀ x ∈ t, x.utf8Size = 1) : bytes t = t.length := by
  induction t with
  | nil => rfl
  | cons x t ih =>
    rw [bytes_cons, h x List.mem_cons_self, ih fun y hy => h y (List.mem_cons_of_mem x hy),
      List.length_cons, Nat.add_comm]

/-! ## The letters in front -/

/-- A word ends at a place. -/
def precededByWord (t : Text) (pos : Nat) : Guarded Bool := do
  return (← sliceTo t pos).getLast?.any isHostWordChar

lemma precededByWord_eq (c : Cursor) :
    precededByWord c.text c.offset = .ok (c.before.any isHostWordChar) := by
  simp only [precededByWord, sliceTo_offset, ok_bind, pure_eq_ok, before_eq_getLast?]

/-- The letters in front of a Python string, counted. -/
def pythonMarkerLength (t : Text) (start : Nat) : Guarded Nat := do
  if ← precededByWord t start then return 0
  else
    let length := ((← sliceFrom t start).take 2).takeWhile ("rRbBuUfF".toList.contains ·) |>.length
    let behind ← sliceFrom t (start + length)
    if length > 0 ∧ (opensWith "\"" behind ∨ opensWith "'" behind) then return length else return 0

/-- The letters in front of a string, counted. -/
def markerLength (language : Language) (t : Text) (start : Nat) : Guarded Nat :=
  match language with
  | .python => pythonMarkerLength t start
  | .java | .kotlin => return 0

/-- The letters in front of a string take a byte each. -/
lemma bytes_letters {t : Text} (h : ∀ x ∈ t, x ∈ "rRbBuUfF".toList) : bytes t = t.length := by
  have hall : "rRbBuUfF".toList.all (·.utf8Size == 1) = true := by decide
  exact bytes_eq_length fun x hx => by simpa using List.all_eq_true.1 hall x (h x hx)

lemma pythonMarkerLength_eq (c : Cursor) :
    pythonMarkerLength c.text c.offset = .ok (pythonMarker c.before c.rest).length := by
  simp only [pythonMarkerLength, precededByWord_eq, ok_bind, pythonMarker]
  by_cases hword : c.before.any isHostWordChar = true
  · simp [hword]
  have hopens : (c.rest.take 2).takeWhile ("rRbBuUfF".toList.contains ·) <+: c.rest :=
    (List.takeWhile_prefix _).trans (List.take_prefix 2 c.rest)
  have hbytes := bytes_letters (t := (c.rest.take 2).takeWhile ("rRbBuUfF".toList.contains ·))
    fun x hx => by simpa using List.mem_takeWhile_imp hx
  simp only [hword, Bool.false_eq_true, if_false, sliceFrom_offset, ok_bind]
  generalize (c.rest.take 2).takeWhile ("rRbBuUfF".toList.contains ·) = letters at hopens hbytes ⊢
  obtain ⟨behind, hrest⟩ := hopens
  obtain ⟨hbehind, hoffset⟩ := Cursor.advance_append hrest.symm
  have hcut : sliceFrom c.text (c.offset + letters.length) = .ok behind := by
    rw [← hbytes, ← hoffset, sliceFrom_advance]
    exact congrArg _ hbehind
  have hdrop : c.rest.drop letters.length = behind := hbehind
  rw [hcut, hdrop]
  simp only [ok_bind, pure_eq_ok]
  cases behind with
  | nil => simp [opensWith, after?]
  | cons x t =>
    have hquote : opensWith "\"" (x :: t) = true ∨ opensWith "'" (x :: t) = true ↔
        x = '"' ∨ x = '\'' := or_congr opensWith_one opensWith_one
    by_cases hx : x = '"' ∨ x = '\''
    · cases letters <;> simp only [hquote, hx] <;> rfl
    · simp only [hquote, hx, and_false]
      rfl

lemma markerLength_eq (language : Language) (c : Cursor) :
    markerLength language c.text c.offset =
      .ok (markerOf language c.before c.rest).length := by
  cases language with
  | python => exact pythonMarkerLength_eq c
  | java | kotlin => rfl

/-! ## Templates -/

/-- Where a template expression ends, of which `depth` braces are open at `pos`. -/
def templateEnd (depth pos : Nat) : Text → Guarded Nat
  | [] => return pos
  | x :: t => do
    if x = '{' then templateEnd (depth + 1) (pos + x.utf8Size) t
    else if x = '}' then
      let depth ← subtract depth 1
      if depth = 0 then return pos + 1 else templateEnd depth (pos + x.utf8Size) t
    else if x = '\n' then return pos
    else templateEnd depth (pos + x.utf8Size) t

/-- Braces are counted down only behind an opening one. -/
lemma templateEnd_eq {depth : Nat} (pos : Nat) {t : Text}
    (h : 0 < depth ∨ t.head? = some '{') :
    templateEnd depth pos t = .ok (pos + bytes (t.take (templateTail depth t))) := by
  induction t generalizing depth pos with
  | nil => simp [templateEnd]
  | cons x t ih =>
    rw [templateEnd, templateTail]
    by_cases hopen : x = '{'
    · rw [if_pos hopen, if_pos hopen, ih _ (.inl (by omega)), Nat.add_comm 1, List.take_succ_cons,
        bytes_cons, Nat.add_assoc]
    have hpos : 1 ≤ depth := h.resolve_right (by simpa using hopen)
    rw [if_neg hopen, if_neg hopen]
    by_cases hclose : x = '}'
    · rw [if_pos hclose, if_pos hclose, subtract_of_le hpos, ok_bind]
      by_cases hlast : depth - 1 = 0
      · rw [if_pos hlast, if_pos (by omega), hclose]
        rfl
      · rw [if_neg hlast, if_neg (by omega), ih _ (.inl (by omega)), Nat.add_comm 1,
          List.take_succ_cons, bytes_cons, Nat.add_assoc]
    rw [if_neg hclose, if_neg hclose]
    by_cases hline : x = '\n'
    · rw [if_pos hline, if_pos hline, List.take_zero, bytes_nil, Nat.add_zero, pure_eq_ok]
    · rw [if_neg hline, if_neg hline, ih _ (.inl hpos), Nat.add_comm 1, List.take_succ_cons,
        bytes_cons, Nat.add_assoc]

/-! ## Closing quotes -/

/-- One round over a run of quotes, three of which stand at a place. -/
def closingRound (t : Text) : Nat × Unit → Guarded (Step (Nat × Unit) Nat)
  | (pos, _) => do
    if opensWith "\"" (← sliceFrom t (pos + 3)) then return .again (pos + 1, ())
    else return .leave pos

/-- The place of the last three quotes of a run. -/
def closingQuotes (t : Text) (pos : Nat) : Guarded Nat := scan closingRound t pos ()

lemma closingQuotes_eq {c : Cursor} {t : Text} (hrest : c.rest = '"' :: '"' :: '"' :: t) :
    closingQuotes c.text c.offset = .ok (c.offset + bytes (t.takeWhile (· = '"'))) := by
  refine (scan_eq_ok
    (fun c _ => c.offset + bytes ((c.rest.drop 3).takeWhile (· = '"')))
    (fun c _ => ∃ t, c.rest = '"' :: '"' :: '"' :: t) ?_ ⟨t, hrest⟩).trans (by rw [hrest]; rfl)
  rintro c - ⟨t, hrest⟩
  have hcut : sliceFrom c.text (c.offset + 3) = .ok t := by
    have hoffset : (c.advance 3).offset = c.offset + 3 := by
      rw [Cursor.offset_advance, hrest]
      rfl
    rw [← hoffset, sliceFrom_advance, hrest]
    rfl
  simp only [closingRound, hcut, ok_bind, hrest]
  by_cases hquote : ∃ u, t = '"' :: u
  · obtain ⟨u, rfl⟩ := hquote
    have hoffset : (c.advance 1).offset = c.offset + 1 := offset_advance_one hrest
    refine .inr ⟨c.advance 1, (), c.reaches_advance 1, by omega, ⟨u, ?_⟩, ?_, ?_⟩
    · rw [rest_advance, hrest]
      rfl
    · rw [rest_advance, hrest, hoffset]
      simp [Nat.add_assoc, Char.utf8Size]
    · have hopens : opensWith "\"" ('"' :: u) = true := opensWith_one.2 rfl
      rw [if_pos hopens, hoffset]
      rfl
  · have hopens : ¬ opensWith "\"" t = true := fun h => by
      obtain ⟨u, hu⟩ := opensWith_iff.1 h
      exact hquote ⟨u, hu.symm⟩
    left
    rw [if_neg hopens]
    cases t with
    | nil => rfl
    | cons x u =>
      have hx : x ≠ '"' := fun hx => hquote ⟨u, by rw [hx]⟩
      simp [hx]

/-! ## Contents -/

/-- One round over the content of a string; it leaves with the place of the closing quotes, if there
are any. -/
def contentRound (rule : ContentRule) (t : Text) :
    Nat × Unit → Guarded (Step (Nat × Unit) (Option Nat))
  | (pos, _) => do
    if pos < bytes t then
      let rest ← sliceFrom t pos
      match rest with
      | [] => return .leave none
      | x :: behind =>
        if x = '\\' ∧ rule.escapes then
          let shielded := (← sliceFrom rest 1).head?
          return .again (pos + 1 + (shielded.map Char.utf8Size).getD 0, ())
        else if x = '\n' ∧ !rule.multiline then return .leave none
        else if rule.templates ∧ opensWith "$\x7b" rest then
          return .again (pos + (← templateEnd 0 1 behind), ())
        else if opensWith rule.delimiter rest then
          return .leave (some (← if rule.lastQuotes then closingQuotes t pos else pure pos))
        else return .again (pos + x.utf8Size, ())
    else return .leave none

/-- The place of the quotes that close a string whose content starts at a place. -/
def contentEnd (rule : ContentRule) (t : Text) (pos : Nat) : Guarded (Option Nat) :=
  scan (contentRound rule) t pos ()

/-- Where the last quotes of a run close, there are three of them. -/
def ClosesByThree (rule : ContentRule) : Prop :=
  rule.lastQuotes = true → rule.delimiter = "\"\"\"".toList

/-- A round over characters that belong to the content hands on the place of the quotes that close
it. -/
lemma contentRound_passes {rule : ContentRule} {c : Cursor} {n : Nat} (hn : 0 < n)
    (hne : c.rest ≠ [])
    (hcontent : content? rule c.rest = (content? rule (c.rest.drop n)).map (c.rest.take n ++ ·))
    (hround : contentRound rule c.text (c.offset, ()) =
      .ok (.again (c.offset + bytes (c.rest.take n), ()))) :
    ∃ d s', c.Reaches d ∧ c.offset < d.offset ∧ True ∧
      (content? rule d.rest).map (fun content => d.offset + bytes content) =
        (content? rule c.rest).map (fun content => c.offset + bytes content) ∧
      contentRound rule c.text (c.offset, ()) = .ok (.again (d.offset, s')) := by
  have hoffset : (c.advance n).offset = c.offset + bytes (c.rest.take n) :=
    Cursor.offset_advance c n
  refine ⟨c.advance n, (), c.reaches_advance n, offset_lt_advance hn hne, trivial, ?_,
    hround.trans (by rw [hoffset])⟩
  rw [hcontent, Option.map_map, rest_advance, hoffset]
  congr 1
  funext content
  simp [Nat.add_assoc]

/-- What a round comes to, by the characters at its place.  The cases are those of the scanner, in
its order; in each of them the slices that the round takes are in range, and the byte offset it goes
on from is that of the characters it has passed. -/
lemma contentRound_cons {rule : ContentRule} (hrule : ClosesByThree rule) {c : Cursor} {x : Char}
    {t : Text} (hrest : c.rest = x :: t) :
    contentRound rule c.text (c.offset, ()) = .ok
      (if x = '\\' ∧ rule.escapes then .again (c.offset + bytes ((x :: t).take 2), ())
      else if x = '\n' ∧ !rule.multiline then .leave none
      else if rule.templates ∧ opensWith "$\x7b" (x :: t) then
        .again (c.offset + bytes ((x :: t).take (templateTail 0 t + 1)), ())
      else
        match after? rule.delimiter (x :: t) with
        | some rest =>
          let quotes := if rule.lastQuotes then rest.takeWhile (· = '"') else []
          .leave (some (c.offset + bytes quotes))
        | none => .again (c.offset + bytes ((x :: t).take 1), ())) := by
  have hgo : c.offset < bytes c.text := (offset_lt_bytes_iff c).2 (by simp [hrest])
  simp only [contentRound, hgo, if_true, sliceFrom_offset, ok_bind, hrest]
  by_cases hescape : x = '\\' ∧ rule.escapes = true
  · have hafter : sliceFrom (x :: t) 1 = .ok t := by
      rw [hescape.1]
      exact sliceFrom_append ['\\'] t
    have hsize : x.utf8Size = 1 := by rw [hescape.1]; rfl
    rw [if_pos hescape, if_pos hescape, hafter]
    cases t <;> simp [hsize, Nat.add_assoc]
  rw [if_neg hescape, if_neg hescape]
  by_cases hline : x = '\n' ∧ (!rule.multiline) = true
  · rw [if_pos hline, if_pos hline]
    rfl
  rw [if_neg hline, if_neg hline]
  by_cases htemplate : rule.templates = true ∧ opensWith "$\x7b" (x :: t) = true
  · obtain ⟨u, hu : x :: t = '$' :: '{' :: u⟩ := opensWith_pair.1 htemplate.2
    obtain ⟨rfl, rfl⟩ := List.cons.inj hu
    rw [if_pos htemplate, if_pos htemplate, templateEnd_eq 1 (.inr (List.head?_cons))]
    rfl
  rw [if_neg htemplate, if_neg htemplate]
  cases hafter : after? rule.delimiter (x :: t) with
  | none =>
    have hclose : ¬ opensWith rule.delimiter (x :: t) = true := by simp [opensWith, hafter]
    rw [if_neg hclose]
    simp
  | some rest =>
    have hclose : opensWith rule.delimiter (x :: t) = true := by simp [opensWith, hafter]
    rw [if_pos hclose]
    by_cases hlast : rule.lastQuotes = true
    · have hquotes : c.rest = '"' :: '"' :: '"' :: rest := by
        rw [hrest, eq_append_of_after? hafter, hrule hlast]
        rfl
      simp [hlast, closingQuotes_eq hquotes]
    · simp [hlast]

lemma contentEnd_eq {rule : ContentRule} (hrule : ClosesByThree rule) (c : Cursor) :
    contentEnd rule c.text c.offset =
      .ok ((content? rule c.rest).map fun content => c.offset + bytes content) := by
  refine scan_eq_ok
    (fun c _ => (content? rule c.rest).map fun content => c.offset + bytes content)
    (fun _ _ => True) ?_ trivial
  rintro c - -
  rcases hrest : c.rest with - | ⟨x, t⟩
  · have hstop : ¬ c.offset < bytes c.text := by rw [offset_lt_bytes_iff, not_not]; exact hrest
    left
    simp [contentRound, hstop, content?]
  have hne : c.rest ≠ [] := by simp [hrest]
  have hround := contentRound_cons hrule hrest
  have hcontent := content?_cons rule x t
  -- the round and the content go by the same cases
  by_cases hescape : x = '\\' ∧ rule.escapes = true
  · rw [if_pos hescape] at hround hcontent
    refine .inr (hrest ▸ contentRound_passes (n := 2) (by omega) hne ?_ (hrest ▸ hround))
    rw [hrest, hcontent]
    cases t with
    | nil => simp [content?]
    | cons y u => rfl
  rw [if_neg hescape] at hround hcontent
  by_cases hline : x = '\n' ∧ (!rule.multiline) = true
  · rw [if_pos hline] at hround hcontent
    rw [hround, hcontent]
    exact .inl rfl
  rw [if_neg hline] at hround hcontent
  by_cases htemplate : rule.templates = true ∧ opensWith "$\x7b" (x :: t) = true
  · rw [if_pos htemplate] at hround hcontent
    refine .inr (hrest ▸ contentRound_passes (Nat.succ_pos _) hne ?_ (hrest ▸ hround))
    rw [hrest, hcontent]
    rfl
  rw [if_neg htemplate] at hround hcontent
  cases hafter : after? rule.delimiter (x :: t) with
  | none =>
    rw [hafter] at hround hcontent
    refine .inr (hrest ▸ contentRound_passes Nat.one_pos hne ?_ (hrest ▸ hround))
    rw [hrest, hcontent]
    rfl
  | some rest =>
    rw [hafter] at hround hcontent
    rw [hround, hcontent]
    exact .inl rfl

/-! ## Strings -/

/-- The parts of a string by their offsets, as a program keeps them that cuts its text where they
say. -/
structure RawString where
  start : Nat
  contentStart : Nat
  contentEnd : Nat
  stop : Nat
  marker : Text
  delimiter : Text
  style : QuoteStyle

/-- The string that starts at a place: none where no string starts, a failure where it never
closes. -/
def readString (language : Language) (t : Text) (start : Nat) :
    Guarded (Option (Except Obstacle RawString)) := do
  let length ← markerLength language t start
  match delimiter? language (← sliceFrom t (start + length)) with
  | none => return none
  | some delimiter =>
    let marker ← slice t start (start + length)
    let contentStart := start + length + bytes delimiter
    match ← contentEnd (.of language delimiter) t contentStart with
    | none => return some (.error (.unterminatedString start))
    | some close =>
      return some (.ok
        { start
          contentStart
          contentEnd := close
          stop := close + bytes delimiter
          marker
          delimiter
          style := (⟨marker, delimiter, []⟩ : Quoted).style language })

/-- A string that stands at a place, by its offsets. -/
def rawOf (language : Language) (c : Cursor) (q : Quoted) : RawString :=
  { start := c.offset
    contentStart := c.offset + bytes q.marker + bytes q.delimiter
    contentEnd := c.offset + bytes q.marker + bytes q.delimiter + bytes q.content
    stop := c.offset + bytes q.source
    marker := q.marker
    delimiter := q.delimiter
    style := q.style language }

/-- What a scan says of the string at a place, by its offsets. -/
def rawAt? (language : Language) (c : Cursor) : Option (Except Obstacle RawString) :=
  (quoted? language c.before c.rest).map fun
    | none => .error (.unterminatedString c.offset)
    | some q => .ok (rawOf language c q)

/-- Runs of quotes close where the delimiter has three of them. -/
lemma closesByThree_of {language : Language} {t delimiter : Text}
    (h : delimiter? language t = some delimiter) : ClosesByThree (.of language delimiter) := by
  intro hlast
  obtain ⟨hkotlin, htriple⟩ : language = .kotlin ∧ delimiter.length = 3 := by
    simpa [ContentRule.of] using hlast
  obtain ⟨-, hquotes | ⟨hpython, -⟩⟩ := delimiter?_cases h
  · simp only [List.mem_cons, List.not_mem_nil, or_false] at hquotes
    rcases hquotes with rfl | rfl
    · rfl
    · cases htriple
  · rw [hkotlin] at hpython
    cases hpython

lemma readString_eq (language : Language) (c : Cursor) :
    readString language c.text c.offset = .ok (rawAt? language c) := by
  simp only [readString, markerLength_eq, ok_bind, rawAt?, quoted?]
  have hbytes := bytes_letters fun x hx =>
    @mem_of_mem_markerOf language c.before c.rest x hx
  obtain ⟨behind, hrest⟩ := markerOf_prefix language c.before c.rest
  generalize markerOf language c.before c.rest = marker at hbytes hrest ⊢
  have htake : c.rest.take marker.length = marker := by rw [← hrest]; exact List.take_left
  have hoffset : (c.advance marker.length).offset = c.offset + marker.length := by
    rw [Cursor.offset_advance, htake, hbytes]
  have hmarker : slice c.text c.offset (c.offset + marker.length) = .ok marker := by
    rw [← hbytes, slice_of_rest hrest.symm]
  rw [← hoffset, sliceFrom_advance, hoffset, hmarker]
  simp only [ok_bind, pure_eq_ok]
  cases hdelimiter : delimiter? language (c.rest.drop marker.length) with
  | none => rfl
  | some delimiter =>
    obtain ⟨inside, hinside⟩ := (delimiter?_cases hdelimiter).1
    have hcontent : ((c.advance marker.length).advance delimiter.length).offset =
        c.offset + marker.length + bytes delimiter := by
      rw [(Cursor.advance_append hinside.symm).2, hoffset]
    have hread := contentEnd_eq (closesByThree_of hdelimiter)
      ((c.advance marker.length).advance delimiter.length)
    simp only [Cursor.text_advance, hcontent, rest_advance] at hread
    simp only [hread, ok_bind, Option.map_some]
    cases content? (.of language delimiter) ((c.rest.drop marker.length).drop delimiter.length) with
    | none => rfl
    | some content =>
      simp only [Option.map_some, rawOf, Quoted.source, bytes_append, hbytes, Nat.add_assoc]
      rfl

/-! ## Literals -/

/-- One round over a character literal behind its opening quote. -/
def charRound (t : Text) : Nat × Unit → Guarded (Step (Nat × Unit) Nat)
  | (pos, _) => do
    match ← peek t pos with
    | none => return .leave pos
    | some x =>
      if x = '\\' then return .again (← bump t (← bump t pos), ())
      else if x = '\'' then return .leave (← bump t pos)
      else if x = '\n' then return .leave pos
      else return .again (← bump t pos, ())

/-- The place behind a character literal; the end of the line if it is never closed. -/
def skipCharLiteral (t : Text) (pos : Nat) : Guarded Nat := do
  scan charRound t (← bump t pos) ()

lemma charScan_eq (c : Cursor) :
    scan charRound c.text c.offset () = .ok (c.advance (charLiteralTail c.rest)).offset := by
  refine scan_eq_ok (fun c _ => (c.advance (charLiteralTail c.rest)).offset) (fun _ _ => True) ?_
    trivial
  rintro c - -
  have hbump : bump c.text (c.advance 1).offset = .ok (c.advance 2).offset := by
    rw [← Cursor.text_advance c 1, bump_offset, Cursor.advance_advance]
  simp only [charRound, peek_offset, ok_bind, bump_offset, hbump]
  rcases hrest : c.rest with - | ⟨x, t⟩
  · left
    simp [charLiteralTail, Cursor.offset_advance]
  have hne : c.rest ≠ [] := by simp [hrest]
  simp only [List.head?_cons, pure_eq_ok]
  by_cases hescape : x = '\\'
  · rw [if_pos hescape]
    refine .inr ⟨c.advance 2, (), c.reaches_advance 2, offset_lt_advance (by omega) hne, trivial,
      ?_, rfl⟩
    rw [rest_advance, hrest, Cursor.advance_advance]
    cases t with
    | nil => simp [charLiteralTail, hescape, Cursor.offset_advance, hrest]
    | cons y t => rw [charLiteralTail, if_pos hescape]; rfl
  rw [if_neg hescape]
  by_cases hclose : x = '\''
  · left
    rw [if_pos hclose]
    cases t <;> simp [charLiteralTail, hclose]
  rw [if_neg hclose]
  by_cases hline : x = '\n'
  · left
    rw [if_pos hline]
    cases t <;> simp [charLiteralTail, hline, Cursor.offset_advance]
  rw [if_neg hline]
  refine .inr ⟨c.advance 1, (), c.reaches_advance 1, offset_lt_advance (by omega) hne, trivial, ?_,
    rfl⟩
  rw [rest_advance, hrest, Cursor.advance_advance]
  cases t with
  | nil => simp [charLiteralTail, hline]
  | cons y t => rw [charLiteralTail, if_neg hescape, if_neg hclose, if_neg hline]; rfl

/-- The place behind a string or a character literal, if there is one. -/
def skipLiteral (language : Language) (t : Text) (pos : Nat) : Guarded (Option Nat) := do
  match ← readString language t pos with
  | some (.ok raw) => return some raw.stop
  | some (.error _) => return some (← skipLine t pos)
  | none =>
    if language ≠ .python ∧ (← peek t pos) = some '\'' then
      return some (← skipCharLiteral t pos)
    else return none

lemma skipLiteral_eq (language : Language) {c : Cursor} {x : Char} {t : Text}
    (hrest : c.rest = x :: t) :
    skipLiteral language c.text c.offset =
      .ok ((literalTail? language c.before x t).map fun n => (c.advance (n + 1)).offset) := by
  simp only [skipLiteral, readString_eq, ok_bind, peek_offset, hrest, List.head?_cons, rawAt?,
    literalTail?]
  cases hquoted : quoted? language c.before (x :: t) with
  | none =>
    by_cases hchar : language ≠ .python ∧ x = '\''
    · have hopen : bump c.text c.offset = .ok (c.advance 1).offset := bump_offset c
      have hscan := charScan_eq (c.advance 1)
      rw [Cursor.text_advance, Cursor.advance_advance, rest_advance, hrest] at hscan
      simp only [Option.map_none, Option.some.injEq, if_pos hchar, skipCharLiteral, hopen, ok_bind,
        hscan, pure_eq_ok, Option.map_some, Nat.add_comm 1]
      rfl
    · simp [hchar]
  | some read =>
    have hx : x ≠ '\n' := by
      rintro rfl
      rw [quoted?_eq_none (by decide)] at hquoted
      cases hquoted
    cases read with
    | none => simp [skipLine_cons hrest hx]
    | some q =>
      have hlength := length_source_pos hquoted
      have hstop := FragmentsAt.offset_behind 0 (hrest ▸ hquoted)
      simp only [Option.map_some, rawOf, pure_eq_ok, Nat.sub_add_cancel hlength, hstop]
      rfl

/-- The place behind a comment or a literal, if there is one. -/
def skipSealed (language : Language) (t : Text) (pos : Nat) : Guarded (Option Nat) := do
  match ← skipComment language t pos with
  | some next => return some next
  | none => skipLiteral language t pos

lemma skipSealed_eq (language : Language) {c : Cursor} {x : Char} {t : Text}
    (hrest : c.rest = x :: t) :
    skipSealed language c.text c.offset =
      .ok ((sealedTail? language c.before x t).map fun n => (c.advance (n + 1)).offset) := by
  simp only [skipSealed, skipComment_eq language hrest, ok_bind, sealedTail?]
  cases commentTail? language x t with
  | some n => rfl
  | none => exact skipLiteral_eq language hrest

end SqlInlay.Guarded
