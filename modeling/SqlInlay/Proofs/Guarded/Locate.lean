import SqlInlay.Proofs.Candidates
import SqlInlay.Proofs.Guarded.Strings

/-!
# Query literals, by offsets

Finding the query literals of a source with nothing but the source and offsets into it: the loop
over the source, over an argument list and over the strings of an expression each have to get on,
what is cut out of the source is cut with a check, and no span ends before it starts.

Every definition here has a counterpart that reads a text by recursion and cannot fail.  What is
shown of each is that it runs without a trap and comes to what the counterpart gives, read as
offsets.

* `argument_eq` — one argument.  It ends where the blanks at its end are cut off, and its value is
  moved back to that end if it would start behind it: only so do the spans that are made of an
  argument run forwards.
* `splitArguments_eq` — an argument list.  `argumentRound_sign` takes the case of a character
  outside comments and literals apart, where parentheses are counted and the counter must not run
  below zero.
* `fragments_eq` — the strings of an expression, each in a span that runs forwards (`spanOf_rawOf`).
* `markAt_eq` — what one annotation holds, with its dialect.
* `locate_eq` — the loop over a source finds what `Host.locate` finds.

A loop is followed by `loop_eq_ok`: it is enough to know of one round that it leaves with the value
that is expected, or goes on from a place further on where the same value is expected.
-/

namespace SqlInlay.Guarded

open SqlInlay.Text SqlInlay.Host

/-! ## Arguments -/

/-- An argument by its offsets. -/
structure RawArgument where
  name : Option Text
  valueStart : Nat
  stop : Nat

/-- An argument of a source, by its offsets. -/
def rawArgument (a : Argument) : RawArgument := ⟨a.name, a.value.offset, a.stop⟩

/-- The name in front of an equals sign, and the characters through that sign. -/
def argumentName? (t : Text) : Option (Text × Nat) :=
  let n := identLength t
  let length := n + ((t.drop n).takeWhile isBlank).length
  if n > 0 ∧ opensWith "=" (t.drop length) then some (t.take n, length + 1) else none

/-- The argument between two offsets; none if there is nothing but blanks and comments. -/
def argument (language : Language) (t : Text) (start stop : Nat) :
    Guarded (Option RawArgument) := do
  let (start, _) ← skipTrivia language t start
  if start ≥ stop then return none
  else
    let stop := start + bytes (trimEnd (← slice t start stop))
    let source ← slice t start stop
    match argumentName? source with
    | none => return some ⟨none, start, stop⟩
    | some (name, n) =>
      let length := bytes (source.take n)
      if opensWith "=" (← sliceFrom source length) then return some ⟨none, start, stop⟩
      else
        let (value, _) ← skipTrivia language t (start + length)
        return some ⟨some name, min value stop, stop⟩

/-- A name is followed by one equals sign and not by two.  The scanner looks for the first sign and
then at the next character; here both are one pattern, and this is the lemma that takes it apart. -/
lemma namedArgument?_eq_filter (t : Text) :
    namedArgument? t = (argumentName? t).filter fun (_, n) => !opensWith "=" (t.drop n) := by
  simp only [namedArgument?, argumentName?]
  by_cases hname : identLength t = 0
  · simp [hname]
  rw [if_neg hname]
  generalize identLength t + ((t.drop (identLength t)).takeWhile isBlank).length = length
  have hdrop : t.drop (length + 1) = (t.drop length).drop 1 := by rw [List.drop_drop]
  have hpos : identLength t > 0 := Nat.pos_of_ne_zero hname
  rcases hbehind : t.drop length with - | ⟨x, u⟩
  · simp [opensWith, after?]
  by_cases hx : x = '='
  · subst hx
    have hopens : opensWith "=" ('=' :: u) = true := opensWith_one.2 rfl
    rw [if_pos ⟨hpos, hopens⟩, Option.filter_some, hdrop, hbehind, List.drop_succ_cons,
      List.drop_zero]
    cases u with
    | nil => rfl
    | cons y u =>
      by_cases hy : y = '='
      · have hsecond : opensWith "=" (y :: u) = true := opensWith_one.2 hy
        subst hy
        rw [hsecond]
        rfl
      · have hsecond : opensWith "=" (y :: u) = false := by
          rw [Bool.eq_false_iff]
          exact fun h => hy (opensWith_one.1 h)
        rw [hsecond]
        simp [hy]
  · have hopens : ¬ (identLength t > 0 ∧ opensWith "=" (x :: u) = true) :=
      fun h => hx (opensWith_one.1 h.2)
    rw [if_neg hopens]
    simp [hx]

/-- A name and its equals sign lie within the text. -/
lemma le_length_of_argumentName? {t name : Text} {n : Nat}
    (h : argumentName? t = some (name, n)) : n ≤ t.length := by
  simp only [argumentName?] at h
  split at h
  · rename_i hopens
    obtain ⟨u, hu⟩ := opensWith_iff.1 hopens.2
    have hlength := congrArg List.length hu
    simp only [Option.some.injEq, Prod.mk.injEq] at h
    simp only [List.length_append, List.length_drop] at hlength
    have : "=".toList.length = 1 := rfl
    omega
  · cases h

/-- What lies between two places, blanks at its end aside, opens what is left at the first. -/
lemma trimEnd_upTo_prefix {c d : Cursor} (h : c.Reaches d) :
    trimEnd (c.upTo d.offset) <+: c.rest := by
  obtain ⟨between, hrest, -⟩ := h.exists_between
  rw [h.upTo_eq hrest, hrest]
  have htrim : trimEnd between <+: between := trimEndWhile_prefix isBlank between
  exact htrim.trans (List.prefix_append _ _)

lemma argument_eq (language : Language) {start d : Cursor} (hd : start.Reaches d) :
    argument language start.text start.offset d.offset =
      .ok ((argumentBetween language start d.offset).map rawArgument) := by
  have hskip := start.reaches_skipTrivia language
  simp only [argument, skipTrivia_eq, ok_bind, argumentBetween]
  by_cases hinner : (start.skipTrivia language).offset ≥ d.offset
  · simp [hinner]
  rw [if_neg hinner, if_neg hinner]
  have hreach := hskip.of_offset_le hd (by omega)
  generalize start.skipTrivia language = inner at hskip hreach
  have htext : inner.text = start.text := hskip.text_eq
  rw [← htext, slice_offset hreach, ok_bind]
  obtain ⟨tail, htail⟩ := trimEnd_upTo_prefix hreach
  generalize trimEnd (inner.upTo d.offset) = source at htail
  have hsource : inner.rest = source ++ tail := htail.symm
  have hstop := (Cursor.advance_append hsource).2
  rw [slice_of_rest hsource, namedArgument?_eq_filter, ok_bind]
  cases hname : argumentName? source with
  | none => rfl
  | some named =>
    obtain ⟨name, n⟩ := named
    have hn := le_length_of_argumentName? hname
    have hafter : sliceFrom source (bytes (source.take n)) = .ok (source.drop n) := by
      have := sliceFrom_append (source.take n) (source.drop n)
      rwa [List.take_append_drop] at this
    simp only [hafter, ok_bind, Option.filter_some]
    by_cases hsecond : opensWith "=" (source.drop n) = true
    · simp only [hsecond, Bool.not_true, Bool.false_eq_true, if_true, if_false]
      rfl
    · have hvalue : inner.offset + bytes (source.take n) = (inner.advance n).offset := by
        rw [Cursor.offset_advance, hsource, List.take_append_of_le_length hn]
      have hskip' := skipTrivia_eq language (inner.advance n)
      rw [Cursor.text_advance] at hskip'
      simp only [hsecond, hvalue, hskip', ok_bind]
      simp only [Bool.false_eq_true, if_false, pure_eq_ok, Bool.not_false, if_true, Option.map_some,
        rawArgument]
      split
      · rename_i hle
        rw [Nat.min_eq_left hle]
      · rename_i hle
        rw [Nat.min_eq_right (by omega), hstop]

/-! ## Argument lists -/

/-- How far an argument list has been read. -/
structure ArgumentState where
  /-- The brackets that are open in the argument at hand. -/
  depth : Nat
  /-- Where that argument starts. -/
  start : Nat
  /-- The arguments in front of it. -/
  done : List RawArgument

/-- One round over an argument list. -/
def argumentRound (language : Language) (t : Text) : Nat × ArgumentState →
    Guarded (Step (Nat × ArgumentState) (Option (List RawArgument × Nat)))
  | (pos, s) => do
    match ← peek t pos with
    | none => return .leave none
    | some x =>
      match ← skipSealed language t pos with
      | some next => return .again (next, s)
      | none =>
        if x = '(' ∨ x = '[' ∨ x = '\x7b' then
          return .again (← bump t pos, { s with depth := s.depth + 1 })
        else if (x = ')' ∨ x = ']' ∨ x = '\x7d') ∧ s.depth > 0 then
          return .again (← bump t pos, { s with depth := ← subtract s.depth 1 })
        else if x = ')' then
          let found ← argument language t s.start pos
          return .leave (some (s.done ++ found.toList, ← bump t pos))
        else if x = ',' ∧ s.depth = 0 then
          let found ← argument language t s.start pos
          return .again (← bump t pos, ⟨s.depth, pos + 1, s.done ++ found.toList⟩)
        else return .again (← bump t pos, s)

/-- The arguments of a list whose opening parenthesis stands at a place, and the place behind the
closing one; none if that is missing. -/
def splitArguments (language : Language) (t : Text) (pos : Nat) :
    Guarded (Option (List RawArgument × Nat)) := do
  let inside ← bump t pos
  scan (argumentRound language) t inside ⟨0, inside, []⟩

/-- A list of arguments and the place behind it, by their offsets. -/
def rawArguments (done : List RawArgument) : List Argument × Cursor → List RawArgument × Nat
  | (arguments, stop) => (done ++ arguments.map rawArgument, stop.offset)

/-- What a round comes to at a character outside comments and literals.  Brackets change the depth,
and at depth zero a comma ends one argument and a parenthesis the last. -/
lemma argumentRound_sign {language : Language} {c : Cursor} {s : ArgumentState} {x : Char}
    {t : Text} {found : Option RawArgument} (hrest : c.rest = x :: t)
    (hread : sealedTail? language c.before x t = none)
    (hfound : argument language c.text s.start c.offset = .ok found) :
    argumentRound language c.text (c.offset, s) = .ok
      (match argumentSign s.depth x with
      | .inside depth => .again ((c.advance 1).offset, { s with depth })
      | .comma =>
        .again ((c.advance 1).offset, ⟨s.depth, (c.advance 1).offset, s.done ++ found.toList⟩)
      | .close => .leave (some (s.done ++ found.toList, (c.advance 1).offset))) := by
  simp only [argumentRound, peek_offset, hrest, List.head?_cons, ok_bind,
    skipSealed_eq language hrest, hread, Option.map_none, bump_offset, hfound, pure_eq_ok,
    argumentSign]
  by_cases hopen : x = '(' ∨ x = '[' ∨ x = '{'
  · simp only [if_pos hopen]
  simp only [if_neg hopen]
  by_cases hclose : (x = ')' ∨ x = ']' ∨ x = '}') ∧ s.depth > 0
  · simp only [if_pos hclose, subtract_of_le (Nat.succ_le_of_lt hclose.2), ok_bind]
  simp only [if_neg hclose]
  by_cases hend : x = ')'
  · simp only [if_pos hend]
  simp only [if_neg hend]
  by_cases hcomma : x = ',' ∧ s.depth = 0
  · have hnext : (c.advance 1).offset = c.offset + 1 := by
      rw [offset_advance_one hrest, hcomma.1]
      rfl
    simp only [if_pos hcomma, hnext]
  · simp only [if_neg hcomma]

lemma splitArguments_eq (language : Language) (c : Cursor) :
    splitArguments language c.text c.offset =
      .ok ((argumentsFrom language 0 (c.advance 1) (c.advance 1)).map (rawArguments [])) := by
  simp only [splitArguments, bump_offset, ok_bind]
  rw [← Cursor.text_advance c 1]
  refine scan_view_eq_ok
    (fun g : Nat × Cursor × List RawArgument => (⟨g.1, g.2.1.offset, g.2.2⟩ : ArgumentState))
    (fun c g => (argumentsFrom language g.1 g.2.1 c).map (rawArguments g.2.2))
    (fun c g => g.2.1.Reaches c) ?_ (c := c.advance 1) (g := (0, c.advance 1, [])) (.refl _)
  rintro c ⟨depth, start, done⟩ hreach
  simp only at hreach
  have hargument := argument_eq language hreach
  rw [← hreach.text_eq] at hargument
  rcases hrest : c.rest with - | ⟨x, t⟩
  · left
    simp [argumentRound, peek_offset, hrest, argumentsFrom_nil hrest]
  have hne : c.rest ≠ [] := by simp [hrest]
  have hone := offset_lt_advance (c := c) (n := 1) (by omega) hne
  simp only [argumentsFrom_cons hrest]
  cases hread : sealedTail? language c.before x t with
  | some n =>
    refine .inr ⟨c.advance (n + 1), (depth, start, done), c.reaches_advance _,
      offset_lt_advance (by omega) hne, hreach.trans (c.reaches_advance _), rfl, ?_⟩
    simp [argumentRound, peek_offset, hrest, skipSealed_eq language hrest, hread]
  | none =>
    rw [argumentRound_sign (s := ⟨depth, start.offset, done⟩) hrest hread hargument]
    cases hsign : argumentSign depth x with
    | inside depth' =>
      exact .inr ⟨c.advance 1, (depth', start, done), c.reaches_advance 1, hone,
        hreach.trans (c.reaches_advance 1), rfl, rfl⟩
    | close =>
      left
      simp only [Option.map_some, rawArguments, Option.toList_map]
    | comma =>
      refine .inr ⟨c.advance 1, (depth, c.advance 1,
        done ++ ((argumentBetween language start c.offset).map rawArgument).toList),
        c.reaches_advance 1, hone, .refl _, ?_, rfl⟩
      simp only [Option.map_map]
      congr 1
      funext found
      simp [rawArguments, Option.toList_map]

/-- The value of an argument is cut out of the source. -/
lemma slice_rawArgument {language : Language} {depth : Nat} {start stop : Cursor}
    {arguments : List Argument}
    (h : argumentsFrom language depth start start = some (arguments, stop)) {a : Argument}
    (ha : a ∈ arguments) :
    slice start.text (rawArgument a).valueStart (rawArgument a).stop = .ok a.source ∧
      (rawArgument a).valueStart ≤ (rawArgument a).stop := by
  have hvalue := ((reaches_of_argumentsFrom (.refl start) h).2 a ha).1
  obtain ⟨first, last, hfirst, hlast, -, -, hspan⟩ := spanned_of_argumentsFrom 0 h ha
  obtain ⟨hstart, hstop⟩ : a.value.offset = first.offset ∧ a.stop = last.offset := by
    simpa using hspan
  have hreach : a.value.Reaches last :=
    hvalue.of_offset_le (hfirst.trans hlast) (hstart ▸ hlast.offset_le)
  refine ⟨?_, by rw [rawArgument, hstop]; exact hreach.offset_le⟩
  rw [rawArgument, Argument.source, hstop, ← hvalue.text_eq, slice_offset hreach]

/-! ## Fragments -/

/-- The joiner at a place, and the place of the next string; none if there is no joiner. -/
def joinerBehind (language : Language) (continued : Bool) (t : Text) (pos : Nat) :
    Guarded (Option (Joiner × Nat)) := do
  if (← peek t pos) = some '+' then
    let (next, _) ← skipTrivia language t (← bump t pos)
    return some (.concatenation, next)
  else
    match language with
    | .python =>
      match ← readString .python t pos with
      | some _ => return some (if continued then .lineContinuation else .juxtaposition, pos)
      | none => return none
    | .java | .kotlin => return none

/-- One round over the strings of an expression, behind those that are done. -/
def fragmentRound (buffer : Nat) (language : Language) (stop : Nat) (t : Text) :
    Nat × List Fragment →
      Guarded (Step (Nat × List Fragment) (Except Obstacle (List Fragment)))
  | (pos, done) => do
    match ← readString language t pos with
    | none => return .leave (.error .notString)
    | some (.error obstacle) => return .leave (.error obstacle)
    | some (.ok raw) =>
      if raw.stop > stop then return .leave (.error .notString)
      else
        match refusal? ⟨raw.marker, raw.delimiter, []⟩ with
        | some obstacle => return .leave (.error obstacle)
        | none =>
          let fragment : Fragment :=
            { span := ← spanOf buffer raw.start raw.stop
              content := ← spanOf buffer raw.contentStart raw.contentEnd
              style := raw.style
              marker := raw.marker
              delimiter := raw.delimiter
              joiner := none }
          let (next, continued) ← skipTrivia language t raw.stop
          if next ≥ stop then return .leave (.ok (done ++ [fragment]))
          else
            match ← joinerBehind language continued t next with
            | none => return .leave (.error .notPlainString)
            | some (joiner, following) =>
              return .again (following, done ++ [{ fragment with joiner := some joiner }])

/-- The fragments of the expression between two offsets. -/
def fragments (buffer : Nat) (language : Language) (t : Text) (start stop : Nat) :
    Guarded (Except Obstacle (List Fragment)) :=
  scan (fragmentRound buffer language stop) t start []

lemma joinerBehind_eq (language : Language) (continued : Bool) (c : Cursor) :
    joinerBehind language continued c.text c.offset =
      .ok ((joinerAt language continued c).map fun (joiner, next) => (joiner, next.offset)) := by
  have hskip := skipTrivia_eq language (c.advance 1)
  rw [Cursor.text_advance] at hskip
  simp only [joinerBehind, peek_offset, bump_offset, ok_bind, joinerAt]
  by_cases hplus : c.rest.head? = some '+'
  · simp [hplus, hskip]
  · rw [if_neg hplus, if_neg hplus]
    cases language with
    | python =>
      simp only [readString_eq, ok_bind, rawAt?]
      cases quoted? .python c.before c.rest <;> rfl
    | java | kotlin => rfl

/-- The span of a fragment and that of its content run forwards. -/
lemma spanOf_rawOf (buffer : Nat) (language : Language) (c : Cursor) (q : Quoted) :
    let raw := rawOf language c q
    spanOf buffer raw.start raw.stop = .ok (fragmentAt buffer language c q).span ∧
      spanOf buffer raw.contentStart raw.contentEnd =
        .ok (fragmentAt buffer language c q).content :=
  ⟨spanOf_of_le (Nat.le_add_right _ _), spanOf_of_le (Nat.le_add_right _ _)⟩

lemma quoted?_nil (language : Language) (before : Option Char) :
    quoted? language before [] = none := by
  cases language <;> simp [quoted?, markerOf, pythonMarker, delimiter?, opensWith, after?]

/-- One step over the strings of an expression, as an equation with no proof about the cursor in it.
The function itself matches on what is unread, which its termination needs and a loop has no use
for. -/
lemma fragmentsFrom_step (buffer : Nat) (language : Language) (stop : Nat) (c : Cursor) :
    fragmentsFrom buffer language stop c =
      match quoted? language c.before c.rest with
      | none => .error .notString
      | some none => .error (.unterminatedString c.offset)
      | some (some q) =>
        let behind := c.advance q.source.length
        if behind.offset > stop then .error .notString
        else
          match refusal? q with
          | some obstacle => .error obstacle
          | none =>
            let next := behind.skipTrivia language
            if next.offset ≥ stop then .ok [fragmentAt buffer language c q]
            else
              match joinerAt language (trivia language behind.rest).2 next with
              | none => .error .notPlainString
              | some (joiner, following) =>
                (fragmentsFrom buffer language stop following).map
                  ({ fragmentAt buffer language c q with joiner := some joiner } :: ·) := by
  rw [fragmentsFrom]
  split
  · rename_i hrest
    rw [hrest, quoted?_nil]
  · rename_i x t hrest
    rw [hrest]
    split <;> rename_i hq <;> rw [hq]
    simp only
    split
    · rfl
    · rename_i q _
      cases refusal? q with
      | some obstacle => rfl
      | none =>
        simp only
        split
        · rfl
        · split <;> rename_i hj <;> rw [hj]

lemma fragments_eq (buffer : Nat) (language : Language) (stop : Nat) (c : Cursor) :
    fragments buffer language c.text c.offset stop =
      .ok (fragmentsFrom buffer language stop c) := by
  have hvalue : fragmentsFrom buffer language stop c =
      (fragmentsFrom buffer language stop c).map ([] ++ ·) := by
    cases fragmentsFrom buffer language stop c <;> rfl
  rw [hvalue]
  refine scan_eq_ok (fun c done => (fragmentsFrom buffer language stop c).map (done ++ ·))
    (fun _ _ => True) ?_ trivial
  rintro c done -
  rw [fragmentsFrom_step]
  simp only [fragmentRound, readString_eq, ok_bind, rawAt?]
  cases hq : quoted? language c.before c.rest with
  | none => exact .inl rfl
  | some read =>
    cases read with
    | none => exact .inl rfl
    | some q =>
      obtain ⟨hspan, hcontent⟩ := spanOf_rawOf buffer language c q
      have hbehind : (rawOf language c q).stop = (c.advance q.source.length).offset :=
        (FragmentsAt.offset_behind buffer hq).symm
      have hskip := skipTrivia_eq language (c.advance q.source.length)
      rw [Cursor.text_advance] at hskip
      rw [hbehind] at hspan
      simp only [Option.map_some, hspan, hcontent, ok_bind, hbehind]
      by_cases hstop : (c.advance q.source.length).offset > stop
      · simp only [if_pos hstop]
        exact .inl rfl
      simp only [if_neg hstop]
      have hrefusal : refusal? ⟨(rawOf language c q).marker, (rawOf language c q).delimiter, []⟩ =
          refusal? q := rfl
      rw [hrefusal]
      cases refusal? q with
      | some obstacle => exact .inl rfl
      | none =>
        have hpos := length_source_pos hq
        have hne : c.rest ≠ [] := by
          intro hnil
          rw [hnil, quoted?_nil] at hq
          cases hq
        have hreach := (c.reaches_advance q.source.length).trans
          (Cursor.reaches_skipTrivia _ language)
        have hlt := (offset_lt_advance hpos hne).trans_le
          ((c.advance q.source.length).reaches_skipTrivia language).offset_le
        simp only [hskip, ok_bind]
        generalize (trivia language (c.advance q.source.length).rest).2 = continued
        generalize (c.advance q.source.length).skipTrivia language = next at hreach hlt
        by_cases hend : next.offset ≥ stop
        · simp only [if_pos hend]
          exact .inl rfl
        have hjoiner := joinerBehind_eq language continued next
        rw [hreach.text_eq] at hjoiner
        simp only [if_neg hend, hjoiner, ok_bind]
        cases hj : joinerAt language continued next with
        | none => exact .inl rfl
        | some found =>
          obtain ⟨joiner, following⟩ := found
          have hfollowing := joinerAt_reaches hj
          refine .inr ⟨following, _, hreach.trans hfollowing, hlt.trans_le hfollowing.offset_le,
            trivial, ?_, rfl⟩
          simp only
          cases fragmentsFrom buffer language stop following with
          | error obstacle => rfl
          | ok rest => simp [Except.map, rawOf, fragmentAt]

/-! ## Annotations -/

/-- The query among some arguments. -/
def rawQuery? (marks : Annotations) (arguments : List RawArgument) : Option RawArgument :=
  arguments.find? (·.name.isNone) <|> arguments.find? fun a => a.name.any marks.isQueryAttribute

/-- Some argument says that the query is native. -/
def isFlagged (t : Text) : List RawArgument → Guarded Bool
  | [] => return false
  | a :: arguments => do
    if a.name = some "nativeQuery".toList then
      if trim (← slice t a.valueStart a.stop) = "true".toList then return true
      else isFlagged t arguments
    else isFlagged t arguments

/-- The dialect that an annotation asks for. -/
def rawDialect (marks : Annotations) (name t : Text) (arguments : List RawArgument) :
    Guarded Sql.Dialect := do
  if marks.isNative name then return .native
  else if ← isFlagged t arguments then return .native
  else return .jpql

/-- The literal of the expression between two offsets, or what stood in the way. -/
def candidate (buffer : Nat) (language : Language) (name : Text) (dialect : Sql.Dialect) (t : Text)
    (query : RawArgument) : Guarded Candidate := do
  match ← fragments buffer language t query.valueStart query.stop with
  | .error obstacle =>
    return .skipped (← spanOf buffer query.valueStart query.stop) (.notExtractable obstacle)
  | .ok fragments =>
    let first ← elementAt fragments 0
    let last ← elementAt fragments (← subtract fragments.length 1)
    return .literal ⟨name, ← spanOf buffer first.span.start last.span.stop, fragments, dialect⟩

/-- What the annotation holds whose sign stands at one offset and whose name ends at another, and
where to read on. -/
def markAt (buffer : Nat) (language : Language) (marks : Annotations) (name t : Text)
    (sign head : Nat) : Guarded (Candidate × Nat) := do
  let (opening, _) ← skipTrivia language t head
  let nameSpan ← spanOf buffer sign head
  if (← peek t opening) ≠ some '(' then
    return (.skipped nameSpan (.notExtractable (.noArgumentList name)), head)
  else
    match ← splitArguments language t opening with
    | none => return (.skipped nameSpan (.notExtractable .unterminatedArguments), head)
    | some (arguments, stop) =>
      let dialect ← rawDialect marks name t arguments
      match rawQuery? marks arguments with
      | none =>
        let span ← spanOf buffer sign stop
        return (.skipped span (.notExtractable (.noQueryArgument name)), stop)
      | some query => return (← candidate buffer language name dialect t query, stop)

lemma rawQuery?_map (marks : Annotations) (arguments : List Argument) :
    rawQuery? marks (arguments.map rawArgument) =
      (queryArgument? marks arguments).map rawArgument := by
  simp only [rawQuery?, queryArgument?, List.find?_map, Option.orElse_eq_orElse,
    Option.orElse_eq_or, Option.map_or]
  rfl

lemma isFlagged_eq {t : Text} {arguments : List Argument}
    (h : ∀ a ∈ arguments,
      slice t (rawArgument a).valueStart (rawArgument a).stop = .ok a.source) :
    isFlagged t (arguments.map rawArgument) =
      .ok (arguments.any fun a =>
        a.name == some "nativeQuery".toList && trim a.source == "true".toList) := by
  induction arguments with
  | nil => rfl
  | cons a arguments ih =>
    obtain ⟨ha, harguments⟩ := List.forall_mem_cons.1 h
    rw [List.map_cons, isFlagged, ha, List.any_cons, ih harguments]
    simp only [ok_bind, pure_eq_ok]
    have hname : (rawArgument a).name = a.name := rfl
    rw [hname]
    by_cases hflag : a.name = some "nativeQuery".toList
    · by_cases htrue : trim a.source = "true".toList
      · rw [if_pos hflag, if_pos htrue, hflag, htrue]
        simp
      · rw [if_pos hflag, if_neg htrue, beq_eq_false_iff_ne.2 htrue]
        simp
    · rw [if_neg hflag, beq_eq_false_iff_ne.2 hflag]
      simp

lemma rawDialect_eq (marks : Annotations) (name : Text) {t : Text} {arguments : List Argument}
    (h : ∀ a ∈ arguments,
      slice t (rawArgument a).valueStart (rawArgument a).stop = .ok a.source) :
    rawDialect marks name t (arguments.map rawArgument) =
      .ok (dialectOf marks name arguments) := by
  simp only [rawDialect, isFlagged_eq h, ok_bind, dialectOf, pure_eq_ok]
  cases marks.isNative name <;> simp only [Bool.false_eq_true, if_false, if_true, Bool.true_or,
    Bool.false_or]
  split <;> rfl

lemma candidate_eq (buffer : Nat) (language : Language) (name : Text) (dialect : Sql.Dialect)
    {query : Argument} (hle : query.value.offset ≤ query.stop) :
    candidate buffer language name dialect query.value.text (rawArgument query) =
      .ok (candidateOf buffer name dialect query
        (fragmentsFrom buffer language query.stop query.value)) := by
  simp only [candidate, rawArgument, fragments_eq, ok_bind]
  cases hfragments : fragmentsFrom buffer language query.stop query.value with
  | error obstacle =>
    simp only [spanOf_of_le hle, ok_bind, pure_eq_ok]
    rfl
  | ok fragments =>
    obtain ⟨d, hd, -⟩ := fragmentsAt_of_fragmentsFrom hfragments
    obtain ⟨hstart, hstop⟩ := hd.ends
    have hpos : 1 ≤ fragments.length := by
      cases fragments with
      | nil => simp at hstart
      | cons => simp
    have hfirst : fragments[0].span.start = query.value.offset := by
      rw [List.head?_eq_getElem?, List.getElem?_eq_getElem hpos] at hstart
      exact Option.some.inj hstart
    have hlast : fragments[fragments.length - 1].span.stop = d.offset := by
      rw [List.getLast?_eq_getElem?, List.getElem?_eq_getElem (by omega)] at hstop
      exact Option.some.inj hstop
    simp only [elementAt_of_lt hpos, subtract_of_le hpos, ok_bind,
      elementAt_of_lt (show fragments.length - 1 < fragments.length by omega), hfirst, hlast,
      spanOf_of_le hd.reaches.offset_le, pure_eq_ok, candidateOf, hstart, hstop, Option.getD_some]

lemma markAt_eq (buffer : Nat) (language : Language) (marks : Annotations) (name : Text)
    {sign head : Cursor} (h : sign.Reaches head) :
    markAt buffer language marks name head.text sign.offset head.offset =
      .ok ((readMark buffer language marks name sign head).1,
        (readMark buffer language marks name sign head).2.offset) := by
  have hskip := head.reaches_skipTrivia language
  have hpeek := peek_offset (head.skipTrivia language)
  have hsplit := splitArguments_eq language (head.skipTrivia language)
  rw [hskip.text_eq] at hpeek hsplit
  simp only [markAt, skipTrivia_eq, spanOf_of_le h.offset_le, hpeek, hsplit, ok_bind, readMark]
  by_cases hopen : (head.skipTrivia language).rest.head? ≠ some '('
  · simp only [if_pos hopen]
    rfl
  simp only [if_neg hopen]
  cases harguments : argumentsFrom language 0 ((head.skipTrivia language).advance 1)
      ((head.skipTrivia language).advance 1) with
  | none => rfl
  | some found =>
    obtain ⟨arguments, stop⟩ := found
    have hinside := hskip.trans ((head.skipTrivia language).reaches_advance 1)
    obtain ⟨hstop, hvalues⟩ := reaches_of_argumentsFrom (.refl _) harguments
    have hslices : ∀ a ∈ arguments,
        slice head.text (rawArgument a).valueStart (rawArgument a).stop = .ok a.source :=
      fun a ha => hinside.text_eq ▸ (slice_rawArgument harguments ha).1
    simp only [Option.map_some, rawArguments, List.nil_append, rawDialect_eq marks name hslices,
      ok_bind, rawQuery?_map]
    cases hquery : queryArgument? marks arguments with
    | none =>
      have hle : sign.offset ≤ stop.offset := (h.trans (hinside.trans hstop)).offset_le
      simp only [Option.map_none, spanOf_of_le hle, ok_bind]
      rfl
    | some query =>
      have hmem := mem_of_queryArgument? hquery
      have hcandidate := candidate_eq buffer language name (dialectOf marks name arguments)
        (slice_rawArgument harguments hmem).2
      rw [(hinside.trans (hvalues query hmem).1).text_eq] at hcandidate
      simp only [Option.map_some, hcandidate, ok_bind]
      rfl

/-! ## Sources -/

/-- The characters of the name of an annotation whose sign is `x`; none behind a word. -/
def nameLength (x : Char) (t : Text) (pos : Nat) : Guarded Nat := do
  if x ≠ '@' then return 0
  else if ← precededByWord t pos then return 0
  else return qualifiedLength ((← sliceFrom t pos).drop 1)

/-- One round over a source, behind the candidates that are found. -/
def locateRound (buffer : Nat) (language : Language) (marks : Annotations) (t : Text) :
    Nat × List Candidate → Guarded (Step (Nat × List Candidate) (List Candidate))
  | (pos, found) => do
    match ← peek t pos with
    | none => return .leave found
    | some x =>
      match ← skipSealed language t pos with
      | some next => return .again (next, found)
      | none =>
        let n ← nameLength x t pos
        if n > 0 then
          let behind := (← sliceFrom t pos).drop 1
          let name := behind.take n
          let head := pos + 1 + bytes name
          if marks.recognizes name then
            let (candidate, resume) ← markAt buffer language marks name t pos head
            return .again (resume, found ++ [candidate])
          else return .again (head, found)
        else return .again (← bump t pos, found)

/-- What the annotations of a source hold. -/
def locate (buffer : Nat) (language : Language) (marks : Annotations) (t : Text) :
    Guarded (List Candidate) :=
  scan (locateRound buffer language marks) t 0 []

/-- A name stands behind the sign at a place, or none does. -/
lemma nameLength_eq {c : Cursor} {x : Char} {t : Text} (hrest : c.rest = x :: t) :
    nameLength x c.text c.offset =
      .ok (if x = '@' ∧ !c.before.any isHostWordChar then qualifiedLength t else 0) := by
  simp only [nameLength, precededByWord_eq, sliceFrom_offset, ok_bind, hrest, pure_eq_ok]
  by_cases hx : x = '@' <;> cases c.before.any isHostWordChar <;> simp [hx]

/-- **The scan of a source** comes to an end without a trap, and finds what `Host.locate` finds.
There is no condition on the source: it may end anywhere, within a literal or an annotation, too. -/
lemma locate_eq (buffer : Nat) (language : Language) (marks : Annotations) (source : Text) :
    locate buffer language marks source = .ok (Host.locate buffer language marks source) := by
  have hscan : scan (locateRound buffer language marks) (Cursor.start source).text
      (Cursor.start source).offset [] =
        .ok ([] ++ locateFrom buffer language marks (.start source)) := by
    refine scan_eq_ok (fun c found => found ++ locateFrom buffer language marks c)
      (fun _ _ => True) ?_ trivial
    rintro c found -
    simp only [locateRound, peek_offset, ok_bind]
    rcases hrest : c.rest with - | ⟨x, t⟩
    · left
      simp [locateFrom_nil hrest]
    have hne : c.rest ≠ [] := by simp [hrest]
    simp only [List.head?_cons, skipSealed_eq language hrest, ok_bind, locateFrom_cons hrest,
      bump_offset, pure_eq_ok]
    cases sealedTail? language c.before x t with
    | some n =>
      exact .inr ⟨c.advance (n + 1), found, c.reaches_advance _, offset_lt_advance (by omega) hne,
        trivial, rfl, rfl⟩
    | none =>
      simp only [Option.map_none, nameLength_eq hrest, ok_bind, sliceFrom_offset]
      by_cases hmark : x = '@' ∧ (!c.before.any isHostWordChar) = true ∧ qualifiedLength t > 0
      · obtain ⟨rfl, hfree, hpos⟩ := hmark
        have hhead : (c.advance (qualifiedLength t + 1)).offset =
            c.offset + 1 + bytes (t.take (qualifiedLength t)) := by
          rw [Cursor.offset_advance, hrest, List.take_succ_cons, bytes_cons, ← Nat.add_assoc]
          rfl
        have hreach := c.reaches_advance (qualifiedLength t + 1)
        have hlt := offset_lt_advance (n := qualifiedLength t + 1) (by omega) hne
        have hdrop : c.rest.drop 1 = t := by rw [hrest]; rfl
        simp only [hfree, hpos, and_self, if_true, hdrop, ← hhead]
        generalize c.advance (qualifiedLength t + 1) = head at hreach hlt
        by_cases hknown : marks.recognizes (t.take (qualifiedLength t)) = true
        · have hmark := markAt_eq buffer language marks (t.take (qualifiedLength t)) hreach
          rw [hreach.text_eq] at hmark
          have hresume := (standsAt_of_readMark buffer language marks
            (t.take (qualifiedLength t)) c head).1
          simp only [if_pos hknown, hmark, ok_bind]
          exact .inr ⟨_, _, hreach.trans hresume, hlt.trans_le hresume.offset_le, trivial,
            by simp, rfl⟩
        · simp only [if_neg hknown]
          exact .inr ⟨head, found, hreach, hlt, trivial, rfl, rfl⟩
      · have hzero : ¬ (if x = '@' ∧ (!c.before.any isHostWordChar) = true then qualifiedLength t
            else 0) > 0 := by
          split
          · rename_i h
            exact fun hpos => hmark ⟨h.1, h.2, hpos⟩
          · exact Nat.lt_irrefl 0
        simp only [if_neg hzero, if_neg hmark]
        exact .inr ⟨c.advance 1, found, c.reaches_advance 1, offset_lt_advance (by omega) hne,
          trivial, rfl, rfl⟩
  rw [Cursor.text_start] at hscan
  exact hscan

end SqlInlay.Guarded
