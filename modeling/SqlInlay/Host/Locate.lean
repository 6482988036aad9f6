import SqlInlay.Host.Scan

/-!
# Finding query literals

`locate` walks through host source, over comments and literals, and returns what each annotation
that is looked for holds, in source order.  It never gives up on a source: an annotation that cannot
be read is a candidate with the reason why, and the walk goes on behind it.

**Arguments.**  The argument list is divided at its outermost commas.  The query is the first
positional argument, or else the first named one with a fitting name; `nativeQuery = true` makes it
native SQL.

**Expressions.**  `fragmentsFrom` reads the query as string literals joined by plus signs, or side
by side in Python.  Anything else is skipped, with the reason.

**Names** of arguments are followed by a single equals sign, with blanks between at most; two such
signs are a comparison, which makes the argument a positional one.

**Progress.**  Each step moves a cursor on by at least one character; the text that is left is the
measure of every recursion.
-/

namespace SqlInlay.Host

open SqlInlay.Text

/-! ## Names -/

/-- The characters of a plain identifier at the start of a text. -/
def identLength : Text → Nat
  | c :: t => if isIdentStart c then 1 + (t.takeWhile isIdentChar).length else 0
  | [] => 0

/-- The characters of a dotted name at the start of a text. -/
def qualifiedLength (t : Text) : Nat :=
  let n := identLength t
  match h : t.drop n with
  | '.' :: u => if n > 0 ∧ identLength u > 0 then n + 1 + qualifiedLength u else n
  | _ => n
termination_by t.length
decreasing_by
  have := congrArg List.length h
  simp only [List.length_drop, List.length_cons] at this
  omega

/-- The name in front of an equals sign, and the characters through that sign; none if a second
equals sign follows, for then the two compare. -/
def namedArgument? (t : Text) : Option (Text × Nat) :=
  let n := identLength t
  if n = 0 then none
  else
    let blanks := ((t.drop n).takeWhile isBlank).length
    match t.drop (n + blanks) with
    | '=' :: '=' :: _ => none
    | '=' :: _ => some (t.take n, n + blanks + 1)
    | _ => none

/-! ## Arguments -/

/-- An argument of an annotation. -/
structure Argument where
  /-- None for a positional argument. -/
  name : Option Text
  /-- Where its value starts. -/
  value : Cursor
  /-- The offset at which it ends, blanks aside. -/
  stop : Nat

namespace Argument

/-- The source of the value. -/
def source (a : Argument) : Text := a.value.upTo a.stop

end Argument

/-- The argument between a place and an offset; none if there is nothing but blanks and comments. -/
def argumentBetween (language : Language) (start : Cursor) (stop : Nat) : Option Argument :=
  let inner := start.skipTrivia language
  if inner.offset ≥ stop then none
  else
    let source := trimEnd (inner.upTo stop)
    let stop := inner.offset + bytes source
    match namedArgument? source with
    | some (name, n) =>
      let value := (inner.advance n).skipTrivia language
      some ⟨some name, if value.offset ≤ stop then value else inner.advance source.length, stop⟩
    | none => some ⟨none, inner, stop⟩

/-- The arguments up to the closing parenthesis, and the place behind it; none if it is missing.
`start` is where the current argument starts, `c` how far it has been read, and `depth` counts the
brackets open in it. -/
def argumentsFrom (language : Language) (depth : Nat) (start c : Cursor) :
    Option (List Argument × Cursor) :=
  match _h : c.rest with
  | [] => none
  | x :: t =>
    match sealedTail? language c.before x t with
    | some n => argumentsFrom language depth start (c.advance (n + 1))
    | none =>
      if x = '(' ∨ x = '[' ∨ x = '\x7b' then
        argumentsFrom language (depth + 1) start (c.advance 1)
      else if (x = ')' ∨ x = ']' ∨ x = '\x7d') ∧ depth > 0 then
        argumentsFrom language (depth - 1) start (c.advance 1)
      else if x = ')' then
        some ((argumentBetween language start c.offset).toList, c.advance 1)
      else if x = ',' ∧ depth = 0 then
        (argumentsFrom language depth (c.advance 1) (c.advance 1)).map fun (arguments, stop) =>
          ((argumentBetween language start c.offset).toList ++ arguments, stop)
      else argumentsFrom language depth start (c.advance 1)
termination_by c.rest.length
decreasing_by all_goals exact Cursor.advance_lt (by omega) (by simp [_h])

/-- The place behind an argument list is behind the place where the list was read from. -/
theorem length_rest_of_argumentsFrom {language : Language} {depth : Nat} {start c stop : Cursor}
    {arguments : List Argument}
    (h : argumentsFrom language depth start c = some (arguments, stop)) :
    stop.rest.length < c.rest.length := by
  fun_induction argumentsFrom language depth start c generalizing arguments with
  | case1 => simp at h
  | case2 _ _ c x t hc _ _ ih =>
    exact Nat.lt_trans (ih h) (Cursor.advance_lt (by omega) (by simp [hc]))
  | case3 _ _ c x t hc _ _ ih =>
    exact Nat.lt_trans (ih h) (Cursor.advance_lt (by omega) (by simp [hc]))
  | case4 _ _ c x t hc _ _ _ ih =>
    exact Nat.lt_trans (ih h) (Cursor.advance_lt (by omega) (by simp [hc]))
  | case5 =>
    simp only [Option.some.injEq, Prod.mk.injEq] at h
    rw [← h.2]
    exact Cursor.advance_lt (by omega) (by simp [*])
  | case6 =>
    rename_i ih
    obtain ⟨⟨rest, stop'⟩, hr, he⟩ := Option.map_eq_some_iff.1 h
    cases he
    exact Nat.lt_trans (ih hr) (Cursor.advance_lt (by omega) (by simp [*]))
  | case7 =>
    rename_i ih
    exact Nat.lt_trans (ih h) (Cursor.advance_lt (by omega) (by simp [*]))

/-! ## Fragments -/

/-- The fragment that a string at a place is. -/
def fragmentAt (buffer : Nat) (language : Language) (c : Cursor) (q : Quoted) : Fragment :=
  let start := c.offset
  let inside := start + bytes q.marker + bytes q.delimiter
  { span := ⟨buffer, start, start + bytes q.source⟩
    content := ⟨buffer, inside, inside + bytes q.content⟩
    style := q.style language
    marker := q.marker
    delimiter := q.delimiter
    joiner := none }

/-- Strings whose contents are not plain text. -/
def refusal? (q : Quoted) : Option Obstacle :=
  if q.marker.any fun c => c = 'f' || c = 'F' then some .interpolated
  else if q.marker.any fun c => c = 'b' || c = 'B' then some .bytesLiteral
  else none

/-- The joiner behind a fragment, and the place of the next one; none if there is no joiner. -/
def joinerAt (language : Language) (continued : Bool) (c : Cursor) : Option (Joiner × Cursor) :=
  if c.rest.head? = some '+' then
    some (.concatenation, (c.advance 1).skipTrivia language)
  else if language = .python ∧ (quoted? language c.before c.rest).isSome then
    some (if continued then .lineContinuation else .juxtaposition, c)
  else none

theorem length_rest_of_joinerAt {language : Language} {continued : Bool} {c next : Cursor}
    {joiner : Joiner} (h : joinerAt language continued c = some (joiner, next)) :
    next.rest.length ≤ c.rest.length := by
  unfold joinerAt at h
  split at h
  · simp only [Option.some.injEq, Prod.mk.injEq] at h
    rw [← h.2]
    simp only [Cursor.skipTrivia, Cursor.length_rest_advance]
    omega
  · split at h
    · simp only [Option.some.injEq, Prod.mk.injEq] at h
      exact Nat.le_of_eq (by rw [h.2])
    · simp at h

/-- The fragments of the expression from a place to an offset. -/
def fragmentsFrom (buffer : Nat) (language : Language) (stop : Nat) (c : Cursor) :
    Except Obstacle (List Fragment) :=
  match _h : c.rest with
  | [] => .error .notString
  | x :: t =>
    match _hq : quoted? language c.before (x :: t) with
    | none => .error .notString
    | some none => .error (.unterminatedString c.offset)
    | some (some q) =>
      let behind := c.advance q.source.length
      if behind.offset > stop then .error .notString
      else
        match refusal? q with
        | some obstacle => .error obstacle
        | none =>
          let fragment := fragmentAt buffer language c q
          let next := behind.skipTrivia language
          if next.offset ≥ stop then .ok [fragment]
          else
            match _hj : joinerAt language (trivia language behind.rest).2 next with
            | none => .error .notPlainString
            | some (joiner, following) =>
              (fragmentsFrom buffer language stop following).map
                (⟨fragment.span, fragment.content, fragment.style, fragment.marker,
                  fragment.delimiter, some joiner⟩ :: ·)
termination_by c.rest.length
decreasing_by
  have h₁ := length_rest_of_joinerAt _hj
  have h₂ : (c.advance q.source.length).rest.length < c.rest.length :=
    Cursor.advance_lt (length_source_pos _hq) (by simp [_h])
  simp only [next, behind, Cursor.skipTrivia, Cursor.length_rest_advance] at h₁ h₂ ⊢
  omega

/-! ## Annotations -/

/-- The query among the arguments: the first positional one, or the first with a fitting name. -/
def queryArgument? (marks : Annotations) (arguments : List Argument) : Option Argument :=
  arguments.find? (·.name.isNone) <|> arguments.find? fun a => a.name.any marks.isQueryAttribute

/-- The dialect that an annotation asks for. -/
def dialectOf (marks : Annotations) (name : Text) (arguments : List Argument) : Sql.Dialect :=
  let flagged := arguments.any fun a =>
    a.name == some "nativeQuery".toList && trim a.source == "true".toList
  if marks.isNative name || flagged then .native else .jpql

/-- The literal of some fragments, or what stood in the way. -/
def candidateOf (buffer : Nat) (name : Text) (dialect : Sql.Dialect) (query : Argument) :
    Except Obstacle (List Fragment) → Candidate
  | .error obstacle =>
    .skipped ⟨buffer, query.value.offset, query.stop⟩ (.notExtractable obstacle)
  | .ok fragments =>
    let start := (fragments.head?.map (·.span.start)).getD query.value.offset
    let stop := (fragments.getLast?.map (·.span.stop)).getD query.stop
    .literal ⟨name, ⟨buffer, start, stop⟩, fragments, dialect⟩

/-- What the annotation holds whose sign stands at `sign` and whose name ends at `head`, and where
to read on. -/
def readMark (buffer : Nat) (language : Language) (marks : Annotations) (name : Text)
    (sign head : Cursor) : Candidate × Cursor :=
  let opening := head.skipTrivia language
  let refused (stop : Nat) (obstacle : Obstacle) : Candidate :=
    .skipped ⟨buffer, sign.offset, stop⟩ (.notExtractable obstacle)
  if opening.rest.head? ≠ some '(' then (refused head.offset (.noArgumentList name), head)
  else
    match argumentsFrom language 0 (opening.advance 1) (opening.advance 1) with
    | none => (refused head.offset .unterminatedArguments, head)
    | some (arguments, stop) =>
      match queryArgument? marks arguments with
      | none => (refused stop.offset (.noQueryArgument name), stop)
      | some query =>
        (candidateOf buffer name (dialectOf marks name arguments) query
          (fragmentsFrom buffer language query.stop query.value), stop)

theorem length_rest_of_readMark (buffer : Nat) (language : Language) (marks : Annotations)
    (name : Text) (sign head : Cursor) :
    (readMark buffer language marks name sign head).2.rest.length ≤ head.rest.length := by
  unfold readMark
  simp only
  split
  · exact Nat.le_refl _
  · split
    · exact Nat.le_refl _
    · rename_i arguments stop h
      have h₁ := length_rest_of_argumentsFrom h
      simp only [Cursor.skipTrivia, Cursor.length_rest_advance] at h₁
      split <;> (simp only; omega)

/-- The candidates behind a place. -/
def locateFrom (buffer : Nat) (language : Language) (marks : Annotations) (c : Cursor) :
    List Candidate :=
  match _h : c.rest with
  | [] => []
  | x :: t =>
    match sealedTail? language c.before x t with
    | some n => locateFrom buffer language marks (c.advance (n + 1))
    | none =>
      let n := qualifiedLength t
      if x = '@' ∧ !c.before.any isHostWordChar ∧ n > 0 then
        let name := t.take n
        let head := c.advance (n + 1)
        if marks.recognizes name then
          let read := readMark buffer language marks name c head
          read.1 :: locateFrom buffer language marks read.2
        else locateFrom buffer language marks head
      else locateFrom buffer language marks (c.advance 1)
termination_by c.rest.length
decreasing_by
  · exact Cursor.advance_lt (by omega) (by simp [_h])
  · exact Nat.lt_of_le_of_lt (length_rest_of_readMark ..)
      (Cursor.advance_lt (by omega) (by simp [_h]))
  · exact Cursor.advance_lt (by omega) (by simp [_h])
  · exact Cursor.advance_lt (by omega) (by simp [_h])

/-- What the annotations of a source hold, in source order. -/
def locate (buffer : Nat) (language : Language) (marks : Annotations) (source : Text) :
    List Candidate :=
  locateFrom buffer language marks (.start source)

end SqlInlay.Host
