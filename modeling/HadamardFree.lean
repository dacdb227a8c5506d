import HadamardFree.Capacity
import HadamardFree.Gadget.Byproduct
import HadamardFree.Gadget.Circuit
import HadamardFree.Gadget.Emission
import HadamardFree.Gadget.Error
import HadamardFree.Gadget.Notice
import HadamardFree.Gate.Basic
import HadamardFree.Gate.Depth
import HadamardFree.Gate.Tagged
import HadamardFree.Network.Basic
import HadamardFree.Network.Diagonalize
import HadamardFree.Network.Tagged
import HadamardFree.Pauli.Basic
import HadamardFree.Pauli.Conjugation
import HadamardFree.Pauli.Letter
import HadamardFree.PhasePolynomial.Basic
import HadamardFree.PhasePolynomial.Folding
import HadamardFree.PhasePolynomial.Stream
import HadamardFree.Register.Basic
import HadamardFree.Register.Placement
import HadamardFree.State.Amplitude
import HadamardFree.State.Basic
import HadamardFree.State.Double
import HadamardFree.State.Evolution
import HadamardFree.State.Exact
import HadamardFree.State.Run
import HadamardFree.Text.Combining
import HadamardFree.Text.Listing
import HadamardFree.Text.Quoted
import HadamardFree.Text.Ranges
import HadamardFree.Text.Unassigned
import HadamardFree.Text.Unprintable
import HadamardFree.Proofs.Conjugation
import HadamardFree.Proofs.Parity
import HadamardFree.Proofs.Slots
import HadamardFree.Proofs.Sites
import HadamardFree.Proofs.Propagation
import HadamardFree.Proofs.Emission
import HadamardFree.Proofs.Flips
import HadamardFree.Proofs.PauliAction
import HadamardFree.Proofs.Wave
import HadamardFree.Proofs.Weight
import HadamardFree.Proofs.Folding
import HadamardFree.Proofs.Teleportation
import HadamardFree.Proofs.Branches
import HadamardFree.Proofs.Readout
import HadamardFree.Proofs.CircuitRun
import HadamardFree.Proofs.Equivalence
import HadamardFree.Proofs.Reduction
import HadamardFree.Proofs.Diagonalization
import HadamardFree.Proofs.CliffordAction
import HadamardFree.Proofs.StreamRun
import HadamardFree.Proofs.Positions
import HadamardFree.Proofs.Replay
import HadamardFree.Proofs.Causality
import HadamardFree.Proofs.Acceptance
import HadamardFree.Proofs.Lifetimes
import HadamardFree.Proofs.Recovery
import HadamardFree.Proofs.Determinism
import HadamardFree.Proofs.Renaming
import HadamardFree.Proofs.Bookkeeping
import HadamardFree.Proofs.Extension
import HadamardFree.Proofs.FlipTable
import HadamardFree.Proofs.Supports
import HadamardFree.Proofs.Commutation
import HadamardFree.Proofs.Misfits
import HadamardFree.Proofs.Symmetry
import HadamardFree.Proofs.Refolding
import HadamardFree.Proofs.Chains
import HadamardFree.Proofs.Exchange
import HadamardFree.Proofs.Frames
import HadamardFree.Proofs.Obstacles
import HadamardFree.Proofs.Interruption
import HadamardFree.Proofs.Sweeps
import HadamardFree.Proofs.Unitarity
