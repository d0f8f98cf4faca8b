import Lowering.Main
import Lowering.Method.Mnemonic
import Lowering.Proofs.Sources
import Lowering.Proofs.Survival
import Lowering.Proofs.Agreement
import Lowering.Proofs.Inheritance
import Lowering.Proofs.Upkeep
import Lowering.Proofs.Extension
import Lowering.Proofs.Conformity
import Lowering.Proofs.Commitment
import Lowering.Proofs.Merging
import Lowering.Proofs.Isolation
import Lowering.Proofs.Fixture
import Lowering.Proofs.Settling
import Lowering.Proofs.Describing
import Lowering.Proofs.Precedence
import Lowering.Proofs.Borrowing
import Lowering.Proofs.Execution
import Lowering.Proofs.Fidelity
import Lowering.Proofs.Retirement
import Lowering.Proofs.Replaying
import Lowering.Proofs.Stability
import Lowering.Proofs.Recording
import Lowering.Proofs.Solving
import Lowering.Proofs.Convergence
import Lowering.Proofs.Calling
import Lowering.Proofs.Addressing
import Lowering.Proofs.Client
import Lowering.Proofs.Returning
import Lowering.Proofs.Layout
import Lowering.Proofs.Chains
import Lowering.Proofs.Packing
import Lowering.Proofs.Routes
import Lowering.Proofs.Selecting
import Lowering.Proofs.Departing
import Lowering.Proofs.Beginning
import Lowering.Proofs.Fanning
import Lowering.Proofs.Checking
import Lowering.Proofs.Folding
import Lowering.Proofs.Reachability
import Lowering.Proofs.Nesting
import Lowering.Proofs.Sharing
import Lowering.Proofs.Choosing
import Lowering.Proofs.Faulting
import Lowering.Proofs.Descending
import Lowering.Proofs.FirstPass
import Lowering.Proofs.Decoding
import Lowering.Proofs.Flattening
import Lowering.Proofs.Pinning
import Lowering.Proofs.Bequest
import Lowering.Proofs.Binding
import Lowering.Proofs.Comparing
import Lowering.Proofs.Dismantling
import Lowering.Proofs.Matching
import Lowering.Proofs.Pruning
import Lowering.Proofs.Framing
import Lowering.Proofs.Regrouping
import Lowering.Proofs.Counting
import Lowering.Proofs.Listening
import Lowering.Proofs.Computing
import Lowering.Proofs.Sheltering
