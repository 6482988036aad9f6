import SqlInlay.Host.Language
import SqlInlay.Style

/-!
# Settings

The settings of a project are a `Style` and the `Annotations` to look for.  What a document says of
them is for its reader to tell; of what was read, the widths have to be usable.
-/

namespace SqlInlay

/-- Everything that a settings file says. -/
structure Settings where
  style : Style := {}
  marks : Host.Annotations := {}
deriving DecidableEq, Repr

/-- The settings that a reader finds in a document, if their widths are usable. -/
def Settings.parse (read : Text → Option Settings) (document : Text) : Except Failure Settings :=
  match read document with
  | none => .error (.settings .malformed)
  | some settings => settings.style.validate.map fun _ => settings

end SqlInlay
