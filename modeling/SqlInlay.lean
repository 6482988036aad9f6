import SqlInlay.Main
import SqlInlay.Projection
import SqlInlay.Reformat
import SqlInlay.Settings
import SqlInlay.Proofs.Host.Blocks
import SqlInlay.Proofs.Reformat
import SqlInlay.Proofs.Sql.Stability
import SqlInlay.Proofs.Sql.Coverage
import SqlInlay.Proofs.Sql.Flattening
import SqlInlay.Proofs.Sql.Joining
import SqlInlay.Proofs.Sql.KeywordCase
import SqlInlay.Proofs.Sql.Idempotence
import SqlInlay.Proofs.Host.Strides
import SqlInlay.Proofs.Host.Meetings
import SqlInlay.Proofs.Host.Encodings
import SqlInlay.Proofs.Host.Swaps
import SqlInlay.Proofs.Unchanged
import SqlInlay.Proofs.Host.Abreast
import SqlInlay.Proofs.Host.Lockstep
import SqlInlay.Proofs.Survival
import SqlInlay.Proofs.Candidates
import SqlInlay.Proofs.Batches
import SqlInlay.Proofs.CutDown
import SqlInlay.Proofs.Sql.Operators
import SqlInlay.Proofs.Sql.Clauses
import SqlInlay.Proofs.Sql.Fitting
import SqlInlay.Proofs.Host.TextBlocks
import SqlInlay.Proofs.Host.Faults
import SqlInlay.Proofs.Host.Remarks
import SqlInlay.Proofs.Sql.Parentheses
import SqlInlay.Proofs.Sql.Delimiters
import SqlInlay.Proofs.Getters
import SqlInlay.Proofs.Columns
import SqlInlay.Proofs.Host.Inverses
import SqlInlay.Proofs.Guarded.Reformat
