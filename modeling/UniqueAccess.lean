import UniqueAccess.Main
import UniqueAccess.Program.Draft
import UniqueAccess.Proofs.OrderedMap
import UniqueAccess.Proofs.Storage.Ancestors
import UniqueAccess.Proofs.Storage.BitLevel
import UniqueAccess.Proofs.Storage.Inheritance
import UniqueAccess.Proofs.Storage.Containers
import UniqueAccess.Proofs.Program.Walk
import UniqueAccess.Proofs.Program.Validity
import UniqueAccess.Proofs.Program.Places
import UniqueAccess.Proofs.Program.WellFormed
import UniqueAccess.Proofs.Program.Order
import UniqueAccess.Proofs.Program.Tasks
import UniqueAccess.Proofs.Program.Bare
import UniqueAccess.Proofs.Access.Uniqueness
import UniqueAccess.Proofs.Access.Alias
import UniqueAccess.Proofs.Access.Pointers
import UniqueAccess.Proofs.Access.Packed
import UniqueAccess.Proofs.Access.Coverage
import UniqueAccess.Proofs.Access.Folding
import UniqueAccess.Proofs.Access.Failure
import UniqueAccess.Proofs.Access.Comparison
import UniqueAccess.Proofs.Access.Queries
import UniqueAccess.Proofs.Access.Results
import UniqueAccess.Proofs.Access.Report
import UniqueAccess.Proofs.Access.Stray
import UniqueAccess.Proofs.Access.Equality
import UniqueAccess.Proofs.Access.Facts
import UniqueAccess.Proofs.Access.Rearrangement
import UniqueAccess.Proofs.Access.Passes
import UniqueAccess.Proofs.Program.Construction
import UniqueAccess.Proofs.Program.Judgement
import UniqueAccess.Proofs.Program.Closing
import UniqueAccess.Proofs.Program.Json
import UniqueAccess.Proofs.Access.Addresses
import UniqueAccess.Proofs.Access.Locality
import UniqueAccess.Proofs.Access.Calls
import UniqueAccess.Proofs.Access.Rules
import UniqueAccess.Proofs.Access.Permanence
import UniqueAccess.Proofs.Access.Dimensions
import UniqueAccess.Proofs.Access.Equivalence
import UniqueAccess.Proofs.Access.Gathering
import UniqueAccess.Proofs.Access.Merging
import UniqueAccess.Proofs.Program.Encounters
import UniqueAccess.Proofs.Program.Cycles
import UniqueAccess.Proofs.Program.Listing
