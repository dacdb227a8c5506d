import HadamardFree.Gate.Tagged
import HadamardFree.Network.Basic

/-!
# Networks in tagged form

The exchange form of a network: tagged gates and axes as text. The first defect
in reading order is reported, the gates of a step before its axis.
-/

namespace HadamardFree

structure TaggedStep where
  piece : List TaggedGate
  sign : Bool
  axis : String
  deriving DecidableEq, Repr

inductive NetworkError where
  | gate (cause : TagError)
  | axis (cause : InvalidLetter)
  deriving DecidableEq, Repr

def NetworkError.message : NetworkError → String
  | gate cause => "gate error: " ++ cause.message
  | axis cause => "rotation error: " ++ cause.message

/-- A step whose axis is still text. -/
def Step.read (piece : List Gate) (axis : String) (sign : Bool) :
    Except NetworkError Step :=
  match Pauli.read axis with
  | .error e => .error (.axis e)
  | .ok axis => .ok ⟨piece, axis, sign⟩

def TaggedStep.read (s : TaggedStep) : Except NetworkError Step :=
  match s.piece.mapM TaggedGate.read with
  | .error e => .error (.gate e)
  | .ok piece => Step.read piece s.axis s.sign

def Step.tagged (s : Step) : TaggedStep :=
  ⟨s.piece.map Gate.tagged, s.sign, s.axis.text⟩

namespace Network

def ofTagged (steps : List TaggedStep) : Except NetworkError Network :=
  (steps.mapM TaggedStep.read).map Network.mk

def tagged (network : Network) : List TaggedStep :=
  network.steps.map Step.tagged

end Network

end HadamardFree
