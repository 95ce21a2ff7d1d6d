import SetQubo.Scalar
import SetQubo.Decimal.Notation
import SetQubo.Decimal.Nearest
import SetQubo.Json.Printer
import SetQubo.Json.Reader
import SetQubo.Variable.Basic
import SetQubo.Pair
import SetQubo.Table
import SetQubo.Variable.Json
import SetQubo.Model.Json
import SetQubo.SetSpec.Syntax
import SetQubo.Embedding.Basic
import SetQubo.Embedding.Decoding
import SetQubo.Solver.Search
import SetQubo.Solver.Json
import SetQubo.Verification.Check
import SetQubo.Verification.Json
import SetQubo.Tile
import SetQubo.Directory
import SetQubo.CommandLine.Run
import SetQubo.Main
import SetQubo.Proofs.Scalar
import SetQubo.Proofs.FirstOccurrences
import SetQubo.Proofs.Pair
import SetQubo.Proofs.Digits
import SetQubo.Proofs.BitVector.Encoding
import SetQubo.Proofs.BitVector.Ones
import SetQubo.Proofs.BitVector.Values
import SetQubo.Proofs.BitVector.Words
import SetQubo.Proofs.Table.Consistency
import SetQubo.Proofs.Table.Rebuild
import SetQubo.Proofs.Table.Similar
import SetQubo.Proofs.Table.Total
import SetQubo.Proofs.Model.Consistency
import SetQubo.Proofs.Model.Labels
import SetQubo.Proofs.Model.Energy
import SetQubo.Proofs.SetSpec.Distinct
import SetQubo.Proofs.Embedding.Shape
import SetQubo.Proofs.Embedding.Terms
import SetQubo.Proofs.Embedding.Landscape
import SetQubo.Proofs.Embedding.Spectrum
import SetQubo.Proofs.Embedding.Decoding
import SetQubo.Proofs.Embedding.GroundStates
import SetQubo.Proofs.Solver.Numbering
import SetQubo.Proofs.Solver.Assignments
import SetQubo.Proofs.Solver.Search
import SetQubo.Proofs.Solver.Evaluation
import SetQubo.Proofs.Solver.Sharing
import SetQubo.Proofs.Solver.Levels
import SetQubo.Proofs.Solver.Closeness
import SetQubo.Proofs.Solver.Optimum
import SetQubo.Proofs.Embedding.Assignments
import SetQubo.Proofs.Embedding.Solutions
import SetQubo.Proofs.Verification.Account
import SetQubo.Proofs.Verification.Boundary
import SetQubo.Proofs.Double.Grid
import SetQubo.Proofs.Double.Packing
import SetQubo.Proofs.Double.Value
import SetQubo.Proofs.Double.Rounding
import SetQubo.Proofs.Double.Arithmetic
import SetQubo.Proofs.Double.Scalar
import SetQubo.Proofs.Double.Closeness
import SetQubo.Proofs.Double.Approximation
import SetQubo.Proofs.Solver.Doubles
import SetQubo.Proofs.Solver.Separation
import SetQubo.Proofs.Embedding.Coefficients
import SetQubo.Proofs.Embedding.Nearness
import SetQubo.Proofs.Embedding.ElementEnergy
import SetQubo.Proofs.Embedding.ElementRounding
import SetQubo.Proofs.Verification.Penalties
import SetQubo.Proofs.Json.Tokens
import SetQubo.Proofs.Json.RoundTrip
import SetQubo.Proofs.Json.Printable
import SetQubo.Proofs.Json.Record
import SetQubo.Proofs.Model.RoundTrip
import SetQubo.Proofs.Model.Steps
import SetQubo.Proofs.Verification.Sharing
import SetQubo.Proofs.Model.Renaming
import SetQubo.Proofs.Solver.Renaming
import SetQubo.Proofs.Embedding.Naming
import SetQubo.Proofs.Table.Determined
import SetQubo.Proofs.Model.SameTerms
import SetQubo.Proofs.Solver.Reordering
import SetQubo.Proofs.Embedding.Decodings
import SetQubo.Proofs.Embedding.Conservation
import SetQubo.Proofs.Table.Lookup
import SetQubo.Proofs.Embedding.Entries
import SetQubo.Proofs.Model.Unreadable
import SetQubo.Proofs.Embedding.Weights
import SetQubo.Proofs.Embedding.Printing
import SetQubo.Proofs.Table.Merging
import SetQubo.Proofs.Model.Collapse
import SetQubo.Proofs.Embedding.Answers
import SetQubo.Proofs.Verification.Outcome
import SetQubo.Proofs.Embedding.Division
import SetQubo.Proofs.Embedding.Contents
import SetQubo.Proofs.FirstFailure
import SetQubo.Proofs.SetSpec.Reading
import SetQubo.Proofs.SetSpec.Views
import SetQubo.Proofs.Solver.Enumeration
import SetQubo.Proofs.Solver.Interning
import SetQubo.Proofs.Tile.Allocation
import SetQubo.Proofs.Table.History
import SetQubo.Proofs.Table.Writing
import SetQubo.Proofs.Pair.Orientation
import SetQubo.Proofs.Json.Null
import SetQubo.Proofs.Json.Restoring
import SetQubo.Proofs.Verification.RoundTrip
import SetQubo.Proofs.CommandLine.Arguments
import SetQubo.Proofs.CommandLine.Calls
import SetQubo.Proofs.CommandLine.Ending
import SetQubo.Proofs.CommandLine.Flags
import SetQubo.Proofs.CommandLine.Status
