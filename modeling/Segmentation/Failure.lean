/-! Why an operation is refused.
A refusal is an invalid argument, a position out of range, or a use at the wrong
time. The texts are in one place, `Failure.message`. -/
namespace Segmentation

/-- What is wrong with an argument. -/
inductive Invalid where
  /-- A cut from `start` to `stop` goes through a character. -/
  | offBoundary (start stop : Nat)
  /-- A text meets a sequence of the caller's. -/
  | mixedVariants
  /-- Two sequences of the caller's are of different kinds. -/
  | mixedKinds
  /-- A node, of the step that ends at `offset`, lacks a connection. -/
  | noConnection (index offset : Nat)
  /-- No word ends with the input. -/
  | noNode
  /-- No node of the last step has a connection to the end. -/
  | noEnd
  /-- The end node has no origin. -/
  | noOrigin
  /-- The edges of a node are not as many as the nodes that it follows. -/
  | edgeCount (edges nodes : Nat)
  /-- A sequence of the caller's refuses, with this text. -/
  | refused (text : String)
deriving DecidableEq

/-- What a call comes too early or too late for. -/
inductive Misuse where
  /-- The lattice accepts no more input. -/
  | settled
  /-- All paths have been passed. -/
  | pastLast
  /-- No path has been reached yet. -/
  | notAdvanced
  /-- The paths have come to their end. -/
  | exhausted
  /-- No path is to come. -/
  | noneFollows
  /-- A sequence of the caller's refuses, with this text. -/
  | refused (text : String)
deriving DecidableEq

inductive Failure where
  | invalid (cause : Invalid)
  | outOfRange (index length : Nat)
  | misuse (cause : Misuse)
deriving DecidableEq

def Invalid.text : Invalid → String
  | .offBoundary start stop => s!"subrange {start}..{stop} does not fall on character boundaries"
  | .mixedVariants => "cannot append inputs of different variants"
  | .mixedKinds => "cannot append custom inputs with different backends"
  | .noConnection index offset =>
    s!"no connection from node {index} of the step ending at offset {offset}"
  | .noNode => "no node is found for the input"
  | .noEnd => "no node of the last step connects to EOS"
  | .noOrigin => "the EOS node does not follow any step"
  | .edgeCount edges nodes => s!"{edges} edge costs for a step of {nodes} nodes"
  | .refused text => text

def Misuse.text : Misuse → String
  | .settled => "the lattice is settled"
  | .pastLast => "advanced past the last path"
  | .notAdvanced => "the iterator has not been advanced"
  | .exhausted => "the iterator is exhausted"
  | .noneFollows => "no path follows"
  | .refused text => text

def Failure.message : Failure → String
  | .invalid cause => "invalid argument: " ++ cause.text
  | .outOfRange index length => s!"index {index} is out of range (length {length})"
  | .misuse cause => "logic error: " ++ cause.text

end Segmentation
