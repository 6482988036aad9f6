import SqlInlay.Text

/-!
# Paths of files

A path is a text with slashes.  What it means is its list of `components`: doubled slashes count
once, and a dot counts only at the very start.  Two paths are the same file name, and one comes
before another, by their components; the text is kept as it was given, for messages.
-/

namespace SqlInlay.Path

/-- A step of a path. -/
inductive Component where
  | root
  | current
  | parent
  | name (name : Text)
deriving DecidableEq, Repr

/-- The component that a piece between slashes stands for; none if it stands for nothing. -/
def component? (piece : Text) : Option Component :=
  if piece = [] ∨ piece = ['.'] then none
  else if piece = ['.', '.'] then some .parent
  else some (.name piece)

/-- The steps of a path. -/
def components (path : Text) : List Component :=
  match Text.splitAt '/' path with
  | [] => []
  | first :: pieces =>
    let rest := pieces.filterMap component?
    if first = [] then (if pieces.isEmpty then [] else .root :: rest)
    else if first = ['.'] then .current :: rest
    else (component? first).toList ++ rest

/-- The name that the path ends in; none if it ends in a step upwards, or is a root. -/
def fileName? (path : Text) : Option Text :=
  match (components path).getLast? with
  | some (.name name) => some name
  | _ => none

/-- What follows the last dot of a file name; a dot at its start is none. -/
def extension? (path : Text) : Option Text :=
  match fileName? path with
  | none => none
  | some name =>
    let extension := (name.reverse.takeWhile (· ≠ '.')).reverse
    if extension.length + 1 < name.length then some extension else none

/-- The path of an entry of a directory. -/
def join (directory : Text) (entry : Text) : Text :=
  if entry.head? = some '/' then entry
  else if directory = [] ∨ directory.getLast? = some '/' then directory ++ entry
  else directory ++ '/' :: entry

/-! ## Order -/

/-- One text comes before another: by the first characters that differ, and a text before its
continuations.  Code points are ordered as their bytes are. -/
def textBefore : Text → Text → Bool
  | _, [] => false
  | [], _ :: _ => true
  | a :: s, b :: t => a.toNat < b.toNat || (a == b && textBefore s t)

namespace Component

/-- The place of a kind of component in their order. -/
def rank : Component → Nat
  | root => 0
  | current => 1
  | parent => 2
  | name _ => 3

/-- One component comes before another. -/
def before : Component → Component → Bool
  | name a, name b => textBefore a b
  | a, b => a.rank < b.rank

end Component

/-- One list of components comes before another. -/
def componentsBefore : List Component → List Component → Bool
  | _, [] => false
  | [], _ :: _ => true
  | a :: s, b :: t => a.before b || (a == b && componentsBefore s t)

/-- One path comes before another. -/
def before (a b : Text) : Bool := componentsBefore (components a) (components b)

/-- A path put in front of the first that it does not come behind. -/
def insertInOrder (path : Text) : List Text → List Text
  | [] => [path]
  | p :: ps => if before p path then p :: insertInOrder path ps else path :: p :: ps

/-- Neighbours that are the same path taken once, as the first of them is written. -/
def dropRepeats : List Text → List Text
  | p :: q :: ps =>
    if components p = components q then dropRepeats (p :: ps) else p :: dropRepeats (q :: ps)
  | ps => ps
termination_by ps => ps.length

/-- Paths in order, each taken once; of two spellings of one path the first given stays. -/
def distinct (paths : List Text) : List Text := dropRepeats (paths.foldr insertInOrder [])

end SqlInlay.Path
