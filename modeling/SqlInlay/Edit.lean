import SqlInlay.Failure

/-!
# Edits of a buffer

An `Edit` replaces one span of a buffer.  Edits are the only way in which formatting changes a
buffer, so they are made as small as they can be: `Edit.between?` cuts away what the old and the new
text have in common at both ends, and makes no edit at all between equal texts.  A start and an end
cannot both be as long as they might, where a text repeats itself; the start is cut away first.

**Batches.**  `applyEdits` orders a batch by position, refuses it when two edits overlap, and then
applies the last edit first, so that the offsets of the earlier ones stay right.

**Order.**  Edits are compared by where their spans start and then by where they end, so an
insertion comes before a replacement at the same place.  Edits of the same span keep the order in
which they were given, and with insertions it shows.

**Checks** are few.  Neighbours that do not overlap are enough for a whole batch, once it is sorted;
and the ends of a span are looked at in the text that has been edited behind it, which is the same
text in front.  `SqlInlay.Proofs.Batches` says what this comes to for the text as it was.
-/

namespace SqlInlay

namespace Text

/-- What two texts have in common at their start. -/
def commonOpening : Text → Text → Text
  | a :: s, b :: t => if a = b then a :: commonOpening s t else []
  | _, _ => []

/-- What both texts are put behind belongs to what they have in common. -/
theorem commonOpening_append (p s t : Text) :
    commonOpening (p ++ s) (p ++ t) = p ++ commonOpening s t := by
  induction p with
  | nil => rfl
  | cons c p ih => simp [commonOpening, ih]

theorem exists_eq_commonOpening_append (s t : Text) : ∃ rest, s = commonOpening s t ++ rest := by
  induction s generalizing t with
  | nil => exact ⟨[], by cases t <;> rfl⟩
  | cons a s ih =>
    cases t with
    | nil => exact ⟨a :: s, rfl⟩
    | cons b t =>
      by_cases h : a = b
      · obtain ⟨rest, hr⟩ := ih t
        exact ⟨rest, by simp [commonOpening, h, ← hr]⟩
      · exact ⟨a :: s, by simp [commonOpening, h]⟩

end Text

/-- Replace what a span covers. -/
structure Edit where
  span : Span
  replacement : Text
deriving DecidableEq, Repr

namespace Edit

/-- The edit that turns what `span` covers into `replacement`, cut down to the bytes that differ;
none where nothing differs. -/
def between? (buffer : Text) (span : Span) (replacement : Text) : Option Edit :=
  let old := span.of buffer
  if old = replacement then none
  else
    let opening := Text.commonOpening old replacement
    let oldRest := old.drop opening.length
    let newRest := replacement.drop opening.length
    let ending := Text.commonOpening oldRest.reverse newRest.reverse
    some
      { span :=
          { span with
            start := span.start + Text.bytes opening
            stop := span.stop - Text.bytes ending }
        replacement := newRest.take (newRest.length - ending.length) }

/-- Edits are ordered by the start of their spans, then by the end. -/
def before (e f : Edit) : Bool :=
  e.span.start < f.span.start || (e.span.start == f.span.start && e.span.stop ≤ f.span.stop)

/-- The edit put in front of the first that does not come before it. -/
def insertInOrder (e : Edit) : List Edit → List Edit
  | [] => [e]
  | f :: es => if e.before f then e :: f :: es else f :: insertInOrder e es

/-- A batch in order of position; edits at one position keep their order. -/
def sorted (edits : List Edit) : List Edit := edits.foldr insertInOrder []

/-- The first pair of neighbours of which the former ends after the latter starts. -/
def overlap? : List Edit → Option (Edit × Edit)
  | e :: f :: es => if e.span.stop > f.span.start then some (e, f) else overlap? (f :: es)
  | _ => none

/-- One edit carried out; its ends have to fall between characters of the text. -/
def apply (e : Edit) (text : Text) : Except Failure Text :=
  if e.span.stop > text.bytes || !text.isBoundary e.span.start || !text.isBoundary e.span.stop then
    .error (.invalidEdits (.outside e.span))
  else
    .ok (text.takeBytes e.span.start ++ e.replacement ++ text.dropBytes e.span.stop)

end Edit

/-- A batch of edits carried out, the last one first. -/
def applyEdits (edits : List Edit) (text : Text) : Except Failure Text :=
  let ordered := Edit.sorted edits
  match Edit.overlap? ordered with
  | some (e, f) => .error (.invalidEdits (.overlap e.span f.span))
  | none => ordered.foldr (fun e done => done >>= e.apply) (.ok text)

end SqlInlay
