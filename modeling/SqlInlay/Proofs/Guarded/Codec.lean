import SqlInlay.Host.Codec
import SqlInlay.Proofs.Batches
import SqlInlay.Proofs.Guarded.Access

/-!
# Decoding and editing, by offsets

A literal is known by its spans, so decoding it cuts the source again, and so does the edit that
replaces it.  Whether these cuts fall between characters is a matter of the literal: `InBounds` says
what they need of it, and what `locate` finds meets it.

**Margins and edits** cut texts at the bytes that two of them have in common, which is where they
first differ or else the end of the shorter one (`commonBytes_eq`).  Both are where a character of
each ends, so the cuts are safe.

**Surrogates.**  Of the escapes only those of UTF-16 units compute with differences, of numbers that
were found to be surrogates before (`surrogatePair_eq`).

**Literals.**  `decode_eq` follows decoding from fragment to fragment: the content of each is cut
out of the source, its margin is taken off (`strip_eq`), escapes are read (`unescape_eq`), and what
stands between neighbouring fragments is cut out as well (`separators_eq`).
-/

namespace SqlInlay.Guarded

open SqlInlay.Text SqlInlay.Host

/-- The text of a span that falls between characters. -/
lemma slice_of_cuts {s : Span} {t : Text} (h : s.Cuts t) : slice t s.start s.stop = .ok (s.of t) :=
  if_pos (Span.cuts_iff.1 h)

/-! ## What two texts have in common -/

/-- The byte at which a text first differs from another, as far as both go. -/
def differAt? : Text → Text → Option Nat
  | a :: s, b :: t => if a = b then (differAt? s t).map (a.utf8Size + ·) else some 0
  | _, _ => none

/-- The bytes that two texts have in common at their start.  Where none differs as far as both go,
these are the bytes of the shorter one. -/
def commonBytes (s t : Text) : Nat := (differAt? s t).getD (min (bytes s) (bytes t))

lemma commonBytes_eq (s t : Text) : commonBytes s t = bytes (commonOpening s t) := by
  induction s generalizing t with
  | nil => cases t <;> simp [commonBytes, differAt?, commonOpening]
  | cons a s ih =>
    cases t with
    | nil => simp [commonBytes, differAt?, commonOpening]
    | cons b t =>
      by_cases h : a = b
      · subst h
        have hrest := ih t
        simp only [commonBytes] at hrest
        simp only [commonBytes, differAt?, commonOpening, if_true, bytes_cons, ← hrest]
        cases differAt? s t with
        | none => exact Nat.add_min_add_left ..
        | some n => rfl
      · simp [commonBytes, differAt?, commonOpening, h]

/-! ## Edits -/

/-- The edit that turns what `span` covers into `replacement`, cut down to the bytes that differ. -/
def makeEdit (source : Text) (span : Span) (replacement : Text) : Guarded (Option Edit) := do
  let original ← slice source span.start span.stop
  if original = replacement then return none
  else
    let opening := commonBytes original replacement
    let originalRest ← sliceFrom original opening
    let replacementRest ← sliceFrom replacement opening
    let ending := bytes (commonOpening originalRest.reverse replacementRest.reverse)
    let stop ← subtract span.stop ending
    let last ← subtract (bytes replacement) ending
    return some
      { span := ← spanOf span.buffer (span.start + opening) stop
        replacement := ← slice replacement opening last }

lemma makeEdit_eq {source : Text} {span : Span} (h : span.Cuts source) (replacement : Text) :
    makeEdit source span replacement = .ok (Edit.between? source span replacement) := by
  simp only [makeEdit, slice_of_cuts h, ok_bind, Edit.between?]
  obtain ⟨front, covered, back, rfl, hstart, hstop⟩ := h
  have hof : span.of (front ++ (covered ++ back)) = covered :=
    slice_bytes hstart (hstop.trans (congrArg (· + _) hstart))
  rw [hof]
  by_cases hsame : covered = replacement
  · simp [hsame]
  rw [if_neg hsame, if_neg hsame]
  obtain ⟨m, n, hm, hn⟩ := exists_common covered replacement
  simp only [commonBytes_eq]
  have hdrop : ∀ opening rest : Text, (opening ++ rest).drop opening.length = rest :=
    fun _ _ => List.drop_left
  generalize commonOpening covered replacement = opening at hm hn ⊢
  generalize hending : commonOpening (covered.drop opening.length).reverse
    (replacement.drop opening.length).reverse = ending at hm hn ⊢
  subst hm hn
  rw [hdrop, hdrop] at hending
  have hbytes : span.stop = span.start + (bytes opening + (bytes m + bytes ending)) := by
    rw [hstop, bytes_append, bytes_append, bytes_reverse]
  have hlast : bytes (opening ++ (n ++ ending.reverse)) - bytes ending = bytes (opening ++ n) := by
    simp only [bytes_append, bytes_reverse]
    omega
  have hle : bytes ending ≤ bytes (opening ++ (n ++ ending.reverse)) := by
    simp only [bytes_append, bytes_reverse]
    omega
  have htake : (n ++ ending.reverse).take ((n ++ ending.reverse).length - ending.length) = n := by
    rw [List.length_append, List.length_reverse, Nat.add_sub_cancel]
    exact List.take_left
  have hslice : slice (opening ++ (n ++ ending.reverse)) (bytes opening) (bytes (opening ++ n)) =
      .ok n := by
    rw [← List.append_assoc]
    exact slice_append opening n ending.reverse
  simp only [sliceFrom_append, ok_bind, hdrop, hending, hlast, subtract_of_le hle, hslice, htake,
    subtract_of_le (show bytes ending ≤ span.stop by omega),
    spanOf_of_le (show span.start + bytes opening ≤ span.stop - bytes ending by omega)]
  rfl

/-! ## Literals in bounds -/

/-- The spans of a literal fall between characters, one behind the other.  This is all that decoding
and editing need to know of where a literal was found. -/
structure InBounds (source : Text) (l : Literal) : Prop where
  span : l.span.Cuts source
  fragments : ∀ f ∈ l.fragments, f.span.Cuts source ∧ f.content.Cuts source
  ordered : l.fragments.Pairwise fun f g => f.span.stop ≤ g.span.start

/-! ## Margins -/

/-- The blanks that a line starts with: what it has more than it has without them. -/
def leadingBlanks (line : Text) : Guarded Text := do
  sliceTo line (← subtract (bytes line) (bytes (trimStart line)))

/-- What two indentations have in common. -/
def sharedIndent (a b : Text) : Guarded Text := sliceTo a (commonBytes a b)

/-- What the indentations of some lines have in common, with one that is known already. -/
def sharedMargin : Option Text → List Text → Guarded (Option Text)
  | known, [] => return known
  | none, l :: ls => do sharedMargin (some (← leadingBlanks l)) ls
  | some m, l :: ls => do sharedMargin (some (← sharedIndent m (← leadingBlanks l))) ls

/-- A content without its margin, and its layout. -/
def strip (content : Text) (stripTrailing : Bool) : Guarded (Text × BlockLayout) := do
  let content := dropReturns content
  let all := lines content
  let opensOnNewLine := all.length > 1 && all.head?.any isBlankText
  let body := if opensOnNewLine then all.drop 1 else all
  let closesOnOwnLine :=
    body.getLast?.any isBlankText && (body.length > 1 || opensOnNewLine)
  let closingIndent := if closesOnOwnLine then body.getLast?.getD [] else []
  let kept := if closesOnOwnLine then body.dropLast else body
  let inline := if opensOnNewLine then 0 else 1
  let known := if closesOnOwnLine then some closingIndent else none
  let margin := (← sharedMargin known ((kept.drop inline).filter (!isBlankText ·))).getD []
  let bare := kept.take inline ++ (kept.drop inline).map (unindent margin)
  let trimmed := if stripTrailing then bare.map (trimEndWhile isLineEndBlank) else bare
  return (unlines trimmed, ⟨margin, opensOnNewLine, closesOnOwnLine, closingIndent⟩)

lemma leadingBlanks_eq (line : Text) : leadingBlanks line = .ok (indentOf line) := by
  have hsplit : indentOf line ++ trimStart line = line := List.takeWhile_append_dropWhile
  have hbytes := congrArg bytes hsplit
  rw [bytes_append] at hbytes
  have hcut : sliceTo line (bytes (indentOf line)) = .ok (indentOf line) := by
    conv_lhs => rw [← hsplit]
    rw [hsplit]
    have := sliceTo_append (indentOf line) (trimStart line)
    rwa [hsplit] at this
  rw [leadingBlanks, subtract_of_le (by omega), ok_bind, ← hbytes, Nat.add_sub_cancel, hcut]

lemma sharedIndent_eq (a b : Text) : sharedIndent a b = .ok (commonOpening a b) := by
  obtain ⟨rest, hrest⟩ := exists_eq_commonOpening_append a b
  have := sliceTo_append (commonOpening a b) rest
  rwa [← hrest, ← commonBytes_eq] at this

lemma sharedMargin_eq (known : Option Text) (ls : List Text) :
    sharedMargin known ls = .ok (marginOf known ls) := by
  induction ls generalizing known with
  | nil => cases known <;> rfl
  | cons l ls ih =>
    cases known <;>
      simp only [sharedMargin, marginOf, leadingBlanks_eq, sharedIndent_eq, ok_bind, ih]

lemma strip_eq (content : Text) (stripTrailing : Bool) :
    strip content stripTrailing = .ok (Host.strip content stripTrailing) := by
  simp only [strip, sharedMargin_eq, ok_bind]
  rfl

/-! ## Escapes -/

/-- The character of a pair of surrogates. -/
def surrogatePair (high low : Nat) : Guarded Nat := do
  return 0x10000 + (← subtract high 0xD800) * 0x400 + (← subtract low 0xDC00)

/-- An escape of a UTF-16 unit, `t` behind its letter. -/
def unitEscape (repeats : Bool) (t : Text) : Guarded (Except EscapeFault (Text × Nat)) := do
  let n := repeatedU repeats t
  match hex 4 (t.drop n) with
  | .error fault => return .error fault
  | .ok unit =>
    if 0xD800 ≤ unit ∧ unit < 0xDC00 then
      match t.drop (n + 4) with
      | '\\' :: behind =>
        match unitAt? repeats behind with
        | some (low, k) =>
          if 0xDC00 ≤ low ∧ low < 0xE000 then
            return (codePoint (← surrogatePair unit low)).map (·, n + 5 + 1 + k)
          else return .error .unpairedSurrogate
        | none => return .error .unpairedSurrogate
      | _ => return .error .unpairedSurrogate
    else return (codePoint unit).map (·, n + 5)

/-- The escape whose backslash a text follows. -/
def readEscape (language : Language) : Text → Guarded (Except EscapeFault (Text × Nat))
  | [] => return Host.readEscape language []
  | x :: t =>
    match language with
    | .java => if x = 'u' then unitEscape true t else return Host.readEscape .java (x :: t)
    | .kotlin => if x = 'u' then unitEscape false t else return Host.readEscape .kotlin (x :: t)
    | .python => return Host.readEscape .python (x :: t)

/-- What a text with escapes stands for; `offset` is where the text starts. -/
def unescape (language : Language) (offset : Nat) : Text → Guarded (Except Failure Text)
  | [] => return .ok []
  | x :: t => do
    if x = '\\' then
      match ← readEscape language t with
      | .error fault => return .error (.unsupportedEscape offset fault)
      | .ok (image, n) =>
        return (← unescape language (offset + x.utf8Size + bytes (t.take n)) (t.drop n)).map
          (image ++ ·)
    else return (← unescape language (offset + x.utf8Size) t).map (x :: ·)
termination_by t => t.length
decreasing_by all_goals simp only [List.length_cons, List.length_drop]; omega

lemma surrogatePair_eq {high low : Nat} (hhigh : 0xD800 ≤ high) (hlow : 0xDC00 ≤ low) :
    surrogatePair high low = .ok (Host.surrogatePair high low) := by
  unfold surrogatePair Host.surrogatePair
  simp only [subtract_of_le hhigh, subtract_of_le hlow, ok_bind, pure_eq_ok]

lemma unitEscape_eq (repeats : Bool) (t : Text) :
    unitEscape repeats t = .ok (Host.unitEscape repeats t) := by
  simp only [unitEscape, Host.unitEscape]
  cases hex 4 (t.drop (repeatedU repeats t)) with
  | error fault => rfl
  | ok unit =>
    simp only [ok_bind]
    by_cases hhigh : 0xD800 ≤ unit ∧ unit < 0xDC00
    · rw [if_pos hhigh, if_pos hhigh]
      rcases t.drop (repeatedU repeats t + 4) with - | ⟨x, behind⟩
      · rfl
      by_cases hx : x = '\\'
      · subst hx
        simp only
        cases unitAt? repeats behind with
        | none => rfl
        | some found =>
          obtain ⟨low, k⟩ := found
          simp only
          by_cases hlow : 0xDC00 ≤ low ∧ low < 0xE000
          · rw [if_pos hlow, if_pos hlow, surrogatePair_eq hhigh.1 hlow.1, ok_bind]
            cases codePoint (Host.surrogatePair unit low) <;> rfl
          · rw [if_neg hlow, if_neg hlow]
            rfl
      · simp [hx]
        rfl
    · rw [if_neg hhigh, if_neg hhigh]
      cases codePoint unit <;> rfl

lemma readEscape_eq (language : Language) (t : Text) :
    readEscape language t = .ok (Host.readEscape language t) := by
  cases t with
  | nil => rfl
  | cons x t =>
    by_cases hx : x = 'u'
    · subst hx
      cases language <;> simp only [readEscape, if_true, unitEscape_eq, pure_eq_ok] <;> rfl
    · cases language <;> simp only [readEscape, if_neg hx, pure_eq_ok]

lemma unescape_eq (language : Language) (offset : Nat) (t : Text) :
    unescape language offset t = .ok (Host.unescape language offset t) := by
  fun_induction Host.unescape language offset t with
  | case1 => simp [unescape]
  | case2 offset t fault hfault => simp [unescape, readEscape_eq, hfault]
  | case3 offset t image n himage ih => simp [unescape, readEscape_eq, himage, ih]
  | case4 offset x t hx ih => simp [unescape, hx, ih]

/-! ## Literals -/

/-- The content of a fragment without its margin, and the layout of a block. -/
def fragmentBody (language : Language) (style : QuoteStyle) (content : Text) :
    Guarded (Text × Option BlockLayout) := do
  if style = .triple then
    let (body, block) ← strip content (language == .java)
    return (body, some block)
  else return (content, none)

/-- What a fragment stands for, and the layout of a block. -/
def decodeFragment (source : Text) (language : Language) (f : Fragment) :
    Guarded (Except Failure (Text × Option BlockLayout)) := do
  let content ← slice source f.content.start f.content.stop
  let raw := f.isRaw language
  match if language = .kotlin then templateFrom? raw f.content.start content else none with
  | some offset => return .error (.notExtractable (.template offset))
  | none =>
    let (body, block) ← fragmentBody language f.style content
    if raw then return .ok (body, block)
    else return (← unescape language f.content.start body).map (·, block)

/-- What fragments stand for together, behind the text `read` and the first block `block`. -/
def decodeFragments (source : Text) (language : Language) (read : Text)
    (block : Option BlockLayout) :
    List Fragment → Guarded (Except Failure (Text × Option BlockLayout))
  | [] => return .ok (read, block)
  | f :: fs => do
    match ← decodeFragment source language f with
    | .error failure => return .error failure
    | .ok (t, layout) =>
      decodeFragments source language (joinTexts read t) (block <|> layout) fs

/-- The source between neighbouring fragments. -/
def separators (source : Text) : List Fragment → Guarded (List Text)
  | f :: g :: fs => do
    let between ← slice source f.span.stop g.span.start
    return between :: (← separators source (g :: fs))
  | _ => return []

/-- The offset at which the line starts that a text ends in. -/
def lineStart (t : Text) : Nat := bytes (t.reverse.dropWhile (· ≠ '\n'))

/-- The indentation of the line that an offset lies on, as far as the offset. -/
def lineIndent (source : Text) (offset : Nat) : Guarded Text := do
  let line ← slice source (lineStart (← sliceTo source offset)) offset
  return line.takeWhile fun c => c == ' ' || c == '\t'

/-- Some fragment spells characters by their code points. -/
def unicodeEscapes (source : Text) (language : Language) : List Fragment → Guarded Bool
  | [] => return false
  | f :: fs => do
    if f.isRaw language then unicodeEscapes source language fs
    else if spellsCodePoints language (← slice source f.content.start f.content.stop) then
      return true
    else unicodeEscapes source language fs

/-- How a literal with a first fragment `f` is written. -/
def hintsOf (source : Text) (language : Language) (l : Literal) (f : Fragment)
    (block : Option BlockLayout) : Guarded Hints := do
  let between ← separators source l.fragments
  return {
    language
    style := f.style
    marker := f.marker
    delimiter := f.delimiter
    raw := f.isRaw language
    fragmentCount := l.fragments.length
    separator := between.head?
    separatorComments := between.any (hasHostComment language)
    hasTriple := l.fragments.any (·.style == .triple)
    block
    lineIndent := ← lineIndent source l.span.start
    unicodeEscapes := ← unicodeEscapes source language l.fragments }

/-- The query text of a literal, and how the literal is written. -/
def decode (source : Text) (language : Language) (l : Literal) :
    Guarded (Except Failure (Text × Hints)) := do
  match l.fragments with
  | [] => return .error (.notExtractable .noFragments)
  | f :: _ =>
    match ← decodeFragments source language [] none l.fragments with
    | .error failure => return .error failure
    | .ok (t, block) => return .ok (t, ← hintsOf source language l f block)

section Decoding

variable {source : Text} {fs : List Fragment}

lemma fragmentBody_eq (language : Language) (style : QuoteStyle) (content : Text) :
    fragmentBody language style content =
      .ok (if style = .triple then
        ((Host.strip content (language == .java)).1,
          some (Host.strip content (language == .java)).2)
      else (content, none)) := by
  unfold fragmentBody
  split
  · simp only [strip_eq, ok_bind, pure_eq_ok]
  · rfl

lemma decodeFragment_eq (language : Language) {f : Fragment} (h : f.content.Cuts source) :
    decodeFragment source language f = .ok (Host.decodeFragment source language f) := by
  simp only [decodeFragment, slice_of_cuts h, ok_bind, Host.decodeFragment, fragmentBody_eq]
  cases (if language = .kotlin then
    templateFrom? (f.isRaw language) f.content.start (f.content.of source) else none) with
  | some offset => rfl
  | none =>
    simp only [unescape_eq, ok_bind, pure_eq_ok]
    split <;> split <;> rfl

lemma decodeFragments_eq (language : Language) (h : ∀ f ∈ fs, f.content.Cuts source) (read : Text)
    (block : Option BlockLayout) :
    decodeFragments source language read block fs =
      .ok (Host.decodeFragments source language read block fs) := by
  induction fs generalizing read block with
  | nil => rfl
  | cons f fs ih =>
    obtain ⟨hf, hfs⟩ := List.forall_mem_cons.1 h
    simp only [decodeFragments, decodeFragment_eq language hf, ok_bind, Host.decodeFragments]
    cases Host.decodeFragment source language f with
    | error failure => rfl
    | ok decoded => exact ih hfs _ _

lemma separators_eq (h : ∀ f ∈ fs, f.span.Cuts source)
    (hordered : fs.Pairwise fun f g => f.span.stop ≤ g.span.start) :
    separators source fs = .ok (Host.separators source fs) := by
  induction fs with
  | nil => rfl
  | cons f fs ih =>
    cases fs with
    | nil => rfl
    | cons g fs =>
      obtain ⟨hf, hrest⟩ := List.forall_mem_cons.1 h
      obtain ⟨hnext, hordered⟩ := List.pairwise_cons.1 hordered
      have hcut : slice source f.span.stop g.span.start =
          .ok (Text.slice f.span.stop g.span.start source) :=
        if_pos ⟨hnext g List.mem_cons_self, (Span.cuts_iff.1 hf).2.2,
          (Span.cuts_iff.1 (hrest g List.mem_cons_self)).2.1⟩
      simp only [separators, hcut, ok_bind, ih hrest hordered, Host.separators]
      rfl

/-- A line starts behind the last line feed, which stands in front of it. -/
lemma lineIndent_eq {offset : Nat} (h : isBoundary offset source = true) :
    lineIndent source offset = .ok (lineIndentAt source offset) := by
  obtain ⟨front, back, rfl, rfl⟩ := exists_split_of_isBoundary h
  have hfront : (front.reverse.dropWhile (· ≠ '\n')).reverse ++
      (front.reverse.takeWhile (· ≠ '\n')).reverse = front := by
    rw [← List.reverse_append, List.takeWhile_append_dropWhile, List.reverse_reverse]
  have hcut : slice (front ++ back) (lineStart front) (bytes front) =
      .ok (front.reverse.takeWhile (· ≠ '\n')).reverse := by
    have := slice_append (front.reverse.dropWhile (· ≠ '\n')).reverse
      (front.reverse.takeWhile (· ≠ '\n')).reverse back
    rwa [hfront, bytes_reverse] at this
  rw [lineIndent, sliceTo_append, ok_bind, hcut, ok_bind, lineIndentAt, takeBytes_bytes_append]
  rfl

lemma unicodeEscapes_eq (language : Language) (h : ∀ f ∈ fs, f.content.Cuts source) :
    unicodeEscapes source language fs =
      .ok (fs.any fun f =>
        !f.isRaw language && spellsCodePoints language (f.content.of source)) := by
  induction fs with
  | nil => rfl
  | cons f fs ih =>
    obtain ⟨hf, hfs⟩ := List.forall_mem_cons.1 h
    simp only [unicodeEscapes, slice_of_cuts hf, ok_bind, ih hfs, List.any_cons, pure_eq_ok]
    cases f.isRaw language <;>
      cases spellsCodePoints language (f.content.of source) <;> simp

/-- Decoding a literal in bounds comes to an end without a trap, and with what `Host.decode` has. -/
lemma decode_eq (language : Language) {l : Literal} (h : InBounds source l) :
    decode source language l = .ok (Host.decode source language l) := by
  have hspans : ∀ f ∈ l.fragments, f.span.Cuts source := fun f hf => (h.fragments f hf).1
  have hcontents : ∀ f ∈ l.fragments, f.content.Cuts source := fun f hf => (h.fragments f hf).2
  have hhints : ∀ f block, hintsOf source language l f block =
      .ok (Host.hintsOf source language l f block) := fun f block => by
    simp only [hintsOf, separators_eq hspans h.ordered,
      lineIndent_eq (Span.cuts_iff.1 h.span).2.1, unicodeEscapes_eq language hcontents, ok_bind]
    rfl
  simp only [decode, decodeFragments_eq language hcontents, hhints, ok_bind, Host.decode]
  cases l.fragments with
  | nil => rfl
  | cons f fs =>
    simp only
    cases Host.decodeFragments source language [] none (f :: fs) <;> rfl

end Decoding

end SqlInlay.Guarded
