import CallFacts.Main
import CallFacts.Proofs.Origins
import CallFacts.Proofs.VisitBound
import CallFacts.Proofs.Distributive
import CallFacts.Proofs.BlockFlow
import CallFacts.Proofs.AddedEdges
import CallFacts.Proofs.SiteValues
import CallFacts.Proofs.Coarsening
import CallFacts.Proofs.Findings
import CallFacts.Proofs.Rearranging
import CallFacts.Proofs.Extraction
import CallFacts.Proofs.Failures
import CallFacts.Proofs.Locality
import CallFacts.Proofs.BlockSplitting
import CallFacts.Proofs.ProperFacts
import CallFacts.Proofs.WrittenText
import CallFacts.Proofs.RelationReadBack
import CallFacts.Proofs.Outline
import CallFacts.Proofs.Assembly
import CallFacts.Proofs.Numbering
import CallFacts.Proofs.DanglingEdges
import CallFacts.Proofs.Frame
import CallFacts.Proofs.Bytes
import CallFacts.Proofs.Conditional
import CallFacts.Proofs.Layout
import CallFacts.Proofs.Aborts
import CallFacts.Proofs.WrittenOperands
import CallFacts.Proofs.WrittenListing
import CallFacts.Proofs.ListingReadBack
import CallFacts.Proofs.Arithmetic
import CallFacts.Proofs.Arithmetic.Arm32
import CallFacts.Proofs.Arithmetic.Arm64
import CallFacts.Proofs.EdgeScan
import CallFacts.Proofs.History
import CallFacts.Proofs.MemberReports
import CallFacts.Proofs.LastWrites
import CallFacts.Proofs.RegisterLists
import CallFacts.Proofs.TrailingOperands
import CallFacts.Proofs.SingleWrites
import CallFacts.Proofs.Destinations
import CallFacts.Proofs.ProgramCounter
import CallFacts.Proofs.RegisterNames
import CallFacts.Proofs.EntryValues
import CallFacts.Proofs.Verification
import CallFacts.Proofs.OperandErrors
import CallFacts.Proofs.SymbolNames
import CallFacts.Proofs.NumberReaders
import CallFacts.Proofs.SpelledOperands
import CallFacts.Proofs.VisitLimit
import CallFacts.Proofs.AcceptedNames
import CallFacts.Proofs.ParallelAssignment
import CallFacts.Proofs.CommentsReadBack
import CallFacts.Proofs.IntegerValues
import CallFacts.Proofs.RegisterSets
