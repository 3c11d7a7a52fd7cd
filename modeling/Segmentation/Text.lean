import Segmentation.Failure

/-! Cutting a text at offsets that count the bytes of its UTF-8 form.
A cut has to fall between two characters. -/
namespace Segmentation

/-- Offsets and lengths are reported up to this one. -/
def maxOffset : Nat := 18446744073709551615

namespace Text

/-- The characters up to an offset and those after it; none if the offset falls
inside a character or behind the last one. -/
def splitAt? : Nat → List Char → Option (List Char × List Char)
  | 0, cs => some ([], cs)
  | _ + 1, [] => none
  | n + 1, c :: cs =>
    if c.utf8Size ≤ n + 1 then (splitAt? (n + 1 - c.utf8Size) cs).map fun (a, b) => (c :: a, b)
    else none

/-- The part of a text with these bytes; none if an end of it falls inside a
character. -/
def part? (s : String) (offset length : Nat) : Option String := do
  let (_, rest) ← splitAt? offset s.toList
  let (cut, _) ← splitAt? length rest
  return String.ofList cut

/-- The part of a text with these bytes. A range beyond the end is refused
before its ends are looked at. -/
def slice (s : String) (offset length : Nat) : Except Failure String :=
  if s.utf8ByteSize < offset + length then
    .error (.outOfRange (min (offset + length) maxOffset) s.utf8ByteSize)
  else
    match part? s offset length with
    | some t => .ok t
    | none => .error (.invalid (.offBoundary offset (offset + length)))

end Text

end Segmentation
