import Covenant.Main
import Covenant.Contract.Describe
import Covenant.Proofs.Interleaving
import Covenant.Proofs.Recognition
import Covenant.Proofs.GuardedCall
import Covenant.Proofs.History
import Covenant.Proofs.Handover
import Covenant.Proofs.Concatenation
import Covenant.Proofs.Compilation
import Covenant.Proofs.Ledger
import Covenant.Proofs.Continuation
import Covenant.Proofs.Policies
import Covenant.Proofs.Deferral
import Covenant.Proofs.Pruning
import Covenant.Proofs.Changes
import Covenant.Proofs.CommandLine
import Covenant.Proofs.RoundTrip
import Covenant.Proofs.Canonical
import Covenant.Proofs.Integers
import Covenant.Proofs.Suspension
import Covenant.Proofs.Partition
import Covenant.Proofs.ViablePrefix
import Covenant.Proofs.Assignments
import Covenant.Proofs.Comparisons
import Covenant.Proofs.Connectives
import Covenant.Proofs.Conjunctions
import Covenant.Proofs.Precedence
import Covenant.Proofs.Attribution
import Covenant.Proofs.Conversions
import Covenant.Proofs.Wording
import Covenant.Proofs.Binding
import Covenant.Proofs.Literals
import Covenant.Proofs.Faults
import Covenant.Proofs.Commands
import Covenant.Proofs.Confinement
import Covenant.Proofs.FieldOrder
