import Segmentation.Text

/-! Stretches of input.
What a lattice reads, and what a vocabulary is asked for, is a text or a
sequence of a kind that the caller supplies. -/
namespace Segmentation

/-- Sequences of the caller's own. A cut or an addition may be refused, and then
has no effect. -/
class Sequence (σ : Type) where
  /-- Sequences of different kinds are never put together. -/
  sameKind : σ → σ → Bool
  length : σ → Nat
  slice : σ → (offset length : Nat) → Except Failure σ
  append : σ → σ → Except Failure σ

inductive Fragment (σ : Type) where
  | text (s : String)
  | custom (c : σ)
deriving Hashable

namespace Fragment

variable {σ : Type}

instance [BEq σ] : BEq (Fragment σ) where
  beq
    | .text s, .text t => s == t
    | .custom c, .custom d => c == d
    | _, _ => false

variable [Sequence σ]

/-- The length of a text is that of its UTF-8 form. -/
def length : Fragment σ → Nat
  | .text s => s.utf8ByteSize
  | .custom c => Sequence.length c

def isEmpty (f : Fragment σ) : Bool :=
  f.length == 0

def slice (f : Fragment σ) (offset length : Nat) : Except Failure (Fragment σ) :=
  match f with
  | .text s => .text <$> Text.slice s offset length
  | .custom c => .custom <$> Sequence.slice c offset length

def append : Fragment σ → Fragment σ → Except Failure (Fragment σ)
  | .text s, .text t => .ok (.text (s ++ t))
  | .custom c, .custom d =>
    if Sequence.sameKind c d then .custom <$> Sequence.append c d
    else .error (.invalid .mixedKinds)
  | _, _ => .error (.invalid .mixedVariants)

end Fragment

end Segmentation
