import FixedLayout.Model.Instance
import FixedLayout.Schema.Compile
import FixedLayout.Layout.Check
import FixedLayout.Layout.Decode
import FixedLayout.Layout.Encode
import FixedLayout.Codec
import FixedLayout.Value.Order
import FixedLayout.Value.Operators
import FixedLayout.Workspace.Handles
import FixedLayout.Value.Integer
import FixedLayout.Workspace.Definitions
import FixedLayout.Main
import FixedLayout.Proofs.Slices
import FixedLayout.Proofs.Integers
import FixedLayout.Proofs.Conversions
import FixedLayout.Proofs.Characters
import FixedLayout.Proofs.Leaves
import FixedLayout.Proofs.Compiled
import FixedLayout.Proofs.Checks
import FixedLayout.Proofs.Trace
import FixedLayout.Proofs.RoundTrip
import FixedLayout.Proofs.Emission
import FixedLayout.Proofs.Canonical
import FixedLayout.Proofs.Rejection
import FixedLayout.Proofs.Buffers
import FixedLayout.Proofs.References
import FixedLayout.Proofs.WellFormed
import FixedLayout.Proofs.Outcomes
import FixedLayout.Proofs.Compilation
import FixedLayout.Proofs.Objects
import FixedLayout.Proofs.Unchecked
import FixedLayout.Proofs.Surroundings
import FixedLayout.Proofs.Navigation
import FixedLayout.Proofs.Views
import FixedLayout.Proofs.Listing
import FixedLayout.Proofs.Sequences
import FixedLayout.Proofs.Borrowing
import FixedLayout.Proofs.Packets
import FixedLayout.Proofs.Enumerations
import FixedLayout.Proofs.Standard
import FixedLayout.Proofs.Validation
import FixedLayout.Proofs.Instances
import FixedLayout.Proofs.Writing
import FixedLayout.Proofs.Adoption
import FixedLayout.Proofs.Assignments
import FixedLayout.Proofs.Archives
import FixedLayout.Proofs.Sizes
import FixedLayout.Proofs.Partition
import FixedLayout.Proofs.Flattening
import FixedLayout.Proofs.Comparisons
import FixedLayout.Proofs.Distinction
import FixedLayout.Proofs.Agreement
import FixedLayout.Proofs.Handles
import FixedLayout.Proofs.Lengths
import FixedLayout.Proofs.Attributes
import FixedLayout.Proofs.Growth
import FixedLayout.Proofs.Runs
import FixedLayout.Proofs.Lending
import FixedLayout.Proofs.Released
import FixedLayout.Proofs.Literals
import FixedLayout.Proofs.Copies
import FixedLayout.Proofs.Discriminants
import FixedLayout.Proofs.Options
import FixedLayout.Proofs.Renaming
import FixedLayout.Proofs.Accessors
import FixedLayout.Proofs.Extensions
import FixedLayout.Proofs.Arguments
import FixedLayout.Proofs.Positional
