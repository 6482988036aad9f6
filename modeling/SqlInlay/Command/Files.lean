import SqlInlay.Host.Source

/-!
# Files and directories

What the commands see of the disk: under a path there is a `Node`, or a reason why nothing can be
read there.  `Files` answers for every path that a command may ask for, so a command is a function
of what it reads, and what it writes is part of its reply.

**Sources.**  `Node.sources` lists the files of a tree that can hold queries.  Directories of build
products and of tools are passed over, save where one is asked for by name.
-/

namespace SqlInlay.Command

/-- What stands under a path.  The content of a file is none where its bytes are no text. -/
inductive Node where
  | file (content : Option Text)
  | directory (entries : List (Text × Node))

/-- Why a path cannot be read as a text. -/
inductive AccessFault where
  | noEntry
  | notDirectory
  | isDirectory
  | notText
deriving DecidableEq, Repr

/-- The system's wording of a fault. -/
def AccessFault.message : AccessFault → String
  | noEntry => "No such file or directory (os error 2)"
  | notDirectory => "Not a directory (os error 20)"
  | isDirectory => "Is a directory (os error 21)"
  | notText => "stream did not contain valid UTF-8"

/-- What stands under each path. -/
abbrev Files := Text → Except AccessFault Node

namespace Files

/-- There is a file under a path. -/
def isFile (files : Files) (path : Text) : Bool :=
  match files path with
  | .ok (.file _) => true
  | _ => false

/-- The text of a file. -/
def read (files : Files) (path : Text) : Except AccessFault Text :=
  match files path with
  | .error fault => .error fault
  | .ok (.directory _) => .error .isDirectory
  | .ok (.file none) => .error .notText
  | .ok (.file (some content)) => .ok content

end Files

namespace Node

/-- The node is a directory. -/
def isDirectory : Node → Bool
  | directory _ => true
  | file _ => false

/-- The directories that are not searched for sources. -/
def passedOver : List Text :=
  ["target", ".git", "node_modules", "build", ".gradle", "__pycache__"].map String.toList

/-- The file can hold queries. -/
def isSource (path : Text) : Bool := (Host.SourceMode.ofPath? path {}).isSome

mutual

/-- The sources of a tree that stands under a path, each with its path and its content. -/
def sources (path : Text) : Node → List (Text × Option Text)
  | .file content => if isSource path then [(path, content)] else []
  | .directory entries => sourcesIn path entries

/-- The sources among the entries of a directory. -/
def sourcesIn (path : Text) : List (Text × Node) → List (Text × Option Text)
  | [] => []
  | (name, node) :: entries =>
    (if node.isDirectory && passedOver.contains name then []
     else sources (Path.join path name) node) ++ sourcesIn path entries

end

end Node

end SqlInlay.Command
