import LogicalForm.Main
import LogicalForm.Validation.Playback
import LogicalForm.Proofs.Folding
import LogicalForm.Proofs.TopDown
import LogicalForm.Proofs.Overlooked
import LogicalForm.Proofs.Layout
import LogicalForm.Proofs.Copies
import LogicalForm.Proofs.Reordering
import LogicalForm.Proofs.YearTriple
import LogicalForm.Proofs.Renaming
import LogicalForm.Proofs.TimeMacro
import LogicalForm.Proofs.Conversion
import LogicalForm.Proofs.Grammar
import LogicalForm.Proofs.Names
import LogicalForm.Proofs.Batch
import LogicalForm.Proofs.Positions
import LogicalForm.Proofs.Guarantees
import LogicalForm.Proofs.Flaws
import LogicalForm.Proofs.BreadthFirst
import LogicalForm.Proofs.Spacing
import LogicalForm.Proofs.Listing
import LogicalForm.Proofs.Validation
import LogicalForm.Proofs.Storage
import LogicalForm.Proofs.Stream
import LogicalForm.Proofs.BatchCommand
import LogicalForm.Proofs.CaseOrder
import LogicalForm.Proofs.ReportLines
import LogicalForm.Proofs.Pieces
import LogicalForm.Proofs.Lines
