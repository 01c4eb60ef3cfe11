import ElispLift.Main
import ElispLift.Proofs.Grammar.Derivation
import ElispLift.Proofs.Grammar.Nullable
import ElispLift.Proofs.Idioms.NormalForm
import ElispLift.Proofs.Chart.Agenda
import ElispLift.Proofs.Chart.Closure
import ElispLift.Proofs.Chart.Recognition
import ElispLift.Proofs.Chart.Worklists
import ElispLift.Proofs.Extraction.Parse
import ElispLift.Proofs.Extraction.Ends
import ElispLift.Proofs.Extraction.Failure
import ElispLift.Proofs.Extraction.Completeness
import ElispLift.Proofs.Extraction.Memo
import ElispLift.Proofs.Extraction.Termination
import ElispLift.Proofs.Blocks.Jumps
import ElispLift.Proofs.Blocks.Pieces
import ElispLift.Proofs.Blocks.Partition
import ElispLift.Proofs.Blocks.Flow
import ElispLift.Proofs.Blocks.Markers
import ElispLift.Proofs.Blocks.Balance
import ElispLift.Proofs.Source.Writing
import ElispLift.Proofs.Source.Shape
import ElispLift.Proofs.Source.Conditionals
import ElispLift.Proofs.Source.Levels
import ElispLift.Proofs.Source.Termination
import ElispLift.Proofs.Source.MoreLevels
import ElispLift.Proofs.Source.Lockstep
import ElispLift.Proofs.Source.Parentheses
import ElispLift.Proofs.Source.Nesting
import ElispLift.Proofs.Source.Layout
import ElispLift.Proofs.Source.Reads
import ElispLift.Proofs.Stack.Frame
import ElispLift.Proofs.Idioms.Shape
import ElispLift.Proofs.Idioms.Value
import ElispLift.Proofs.Idioms.Reads
import ElispLift.Proofs.StraightLine.Parsing
import ElispLift.Proofs.StraightLine.Rendering
import ElispLift.Proofs.StraightLine.RoundTrip
import ElispLift.Proofs.Loop.RoundTrip
import ElispLift.Proofs.Let.RoundTrip
import ElispLift.Proofs.Let.Headers
import ElispLift.Proofs.Decompile.Comments
import ElispLift.Proofs.Listing.Composition
import ElispLift.Proofs.Listing.RoundTrip
import ElispLift.Proofs.Listing.Routines
import ElispLift.Proofs.Cond.RoundTrip
import ElispLift.Proofs.Source.Lines
import ElispLift.Proofs.Source.Constants
import ElispLift.Proofs.Source.Quotes
import ElispLift.Proofs.Idioms.Instructions
import ElispLift.Proofs.Blocks.Targets
import ElispLift.Proofs.Blocks.Filling
import ElispLift.Proofs.Blocks.Sums
import ElispLift.Proofs.Listing.Docstrings
import ElispLift.Proofs.Keys.Descriptions
import ElispLift.Proofs.Idioms.TempBuffer
import ElispLift.Proofs.Grammar.Synthesis
import ElispLift.Proofs.Extraction.Surroundings
import ElispLift.Proofs.Listing.Order
import ElispLift.Proofs.Listing.Rows
import ElispLift.Proofs.Source.Appending
import ElispLift.Proofs.Idioms.Conditionals
