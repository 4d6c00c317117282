import HashedFeatures.Config.Text
import HashedFeatures.Example.Builder
import HashedFeatures.Example.Transplant
import HashedFeatures.Example.Unique
import HashedFeatures.Expansion.Norm
import HashedFeatures.Expansion.Traversal
import HashedFeatures.Group.Dot
import HashedFeatures.Ngram.Generate
import HashedFeatures.Ngram.Walk
import HashedFeatures.Proofs.Binary32.Product
import HashedFeatures.Proofs.Expansion.Loops
import HashedFeatures.Proofs.Expansion.Odometer
import HashedFeatures.Proofs.Expansion.Selection
import HashedFeatures.Proofs.Expansion.Bounds
import HashedFeatures.Proofs.Expansion.Enumeration
import HashedFeatures.Proofs.Term.Choice
import HashedFeatures.Proofs.Term.Instance
import HashedFeatures.Proofs.Term.Compile
import HashedFeatures.Proofs.Term.Homogeneous
import HashedFeatures.Proofs.Expansion.Coverage
import HashedFeatures.Proofs.Weights.Initial
import HashedFeatures.Proofs.Weights.Flat
import HashedFeatures.Proofs.Weights.Agreement
import HashedFeatures.Proofs.Arrangement.Stable
import HashedFeatures.Proofs.Binary32.Order
import HashedFeatures.Proofs.Binary32.Rounding
import HashedFeatures.Proofs.Binary32.Integer
import HashedFeatures.Proofs.Group.Sort
import HashedFeatures.Proofs.Group.Merge
import HashedFeatures.Proofs.Expansion.Flatten
import HashedFeatures.Proofs.Expansion.Runs
import HashedFeatures.Proofs.Expansion.Traversal
import HashedFeatures.Proofs.Expansion.ClosedForm
import HashedFeatures.Proofs.Expansion.Norm
import HashedFeatures.Proofs.Weights.Reading
import HashedFeatures.Proofs.Expansion.Prediction
import HashedFeatures.Proofs.Attempt.Invariant
import HashedFeatures.Proofs.Example.Operation
import HashedFeatures.Proofs.Example.Program
import HashedFeatures.Proofs.Example.Unwinding
import HashedFeatures.Proofs.Term.Fixed
import HashedFeatures.Proofs.Term.Stream
import HashedFeatures.Proofs.Example.Fingerprint
import HashedFeatures.Proofs.Binary32.Difference
import HashedFeatures.Proofs.Group.Entries
import HashedFeatures.Proofs.Group.History
import HashedFeatures.Proofs.Weights.Alias
import HashedFeatures.Proofs.Weights.Isolation
import HashedFeatures.Proofs.Weights.Blocks
import HashedFeatures.Proofs.Weights.Listing
import HashedFeatures.Proofs.Weights.Allocation
import HashedFeatures.Proofs.Json.Reading
import HashedFeatures.Proofs.Config.RoundTrip
import HashedFeatures.Proofs.Ngram.Group
import HashedFeatures.Proofs.Ngram.Walk
import HashedFeatures.Proofs.Ngram.Generate
import HashedFeatures.Proofs.Json.Scanning
import HashedFeatures.Proofs.Ngram.Windows
import HashedFeatures.Proofs.Group.Labels
import HashedFeatures.Proofs.Group.Interleaved
import HashedFeatures.Proofs.Group.Unique
import HashedFeatures.Proofs.Example.Namespaces
import HashedFeatures.Proofs.Example.Unique
import HashedFeatures.Proofs.Weights.Zeroing
import HashedFeatures.Proofs.Binary32.Exact
import HashedFeatures.Proofs.Example.Transplant
import HashedFeatures.Proofs.Example.Shift
import HashedFeatures.Proofs.Expansion.Nesting
import HashedFeatures.Proofs.Group.Arranged
import HashedFeatures.Proofs.Group.Summed
import HashedFeatures.Proofs.Group.Capped
import HashedFeatures.Term.Counter
import HashedFeatures.Term.Insertion
import HashedFeatures.Proofs.Group.Dot
import HashedFeatures.Proofs.Term.Lexicographic
import HashedFeatures.Proofs.Term.Digits
import HashedFeatures.Proofs.Term.Counter
import HashedFeatures.Proofs.Term.Dial
import HashedFeatures.Proofs.Term.Counted
import HashedFeatures.Proofs.Term.Insertion
import HashedFeatures.Term.Extraction
import HashedFeatures.Hash.Scan
import HashedFeatures.Proofs.Term.Firsts
import HashedFeatures.Proofs.Term.Extraction
import HashedFeatures.Proofs.Config.Validation
import HashedFeatures.Proofs.Hash.Numeric
import HashedFeatures.Proofs.Expansion.Count
import HashedFeatures.Proofs.Hash.Murmur
import HashedFeatures.Proofs.Expansion.Neighbours
import HashedFeatures.Proofs.Weights.Indexing
import HashedFeatures.Proofs.Ngram.Grammar
import HashedFeatures.Proofs.Weights.Slots
