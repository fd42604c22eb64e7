import JitBackend.Amd64.Target
import JitBackend.Pipeline
import JitBackend.Proofs.Flatten
import JitBackend.Proofs.LinearScan
import JitBackend.Proofs.Amd64.Activation
import JitBackend.Proofs.Amd64.Arithmetic
import JitBackend.Proofs.Amd64.Compare
import JitBackend.Proofs.Amd64.Selection
import JitBackend.Proofs.Resolution
import JitBackend.Proofs.Amd64.Decode
import JitBackend.Proofs.Amd64.Encoding
import JitBackend.Proofs.Amd64.Roundtrip
import JitBackend.Proofs.Amd64.Acceptance
import JitBackend.Proofs.Amd64.Integral
import JitBackend.Proofs.Amd64.Inexact
import JitBackend.Proofs.Amd64.Assignment
import JitBackend.Proofs.Amd64.Storing
import JitBackend.Proofs.Construction
import JitBackend.Proofs.Folding
import JitBackend.Proofs.Survival
import JitBackend.Proofs.Amd64.Layout
import JitBackend.Proofs.Amd64.Synthesis
import JitBackend.Proofs.Amd64.Branching
import JitBackend.Proofs.Amd64.Linking
import JitBackend.Proofs.Amd64.Balance
import JitBackend.Proofs.Amd64.Conditions
import JitBackend.Proofs.Widening
import JitBackend.Proofs.NormalForm
import JitBackend.Proofs.Amd64.Shifts
import JitBackend.Proofs.Amd64.InFlight
import JitBackend.Proofs.Spilling
import JitBackend.Proofs.Amd64.Coverage
import JitBackend.Proofs.Leases
import JitBackend.Proofs.LoopExits
import JitBackend.Proofs.Amd64.Independence
import JitBackend.Proofs.Amd64.Numbering
import JitBackend.Proofs.Amd64.Division
import JitBackend.Proofs.Amd64.Recursion
import JitBackend.Proofs.Amd64.Termination
