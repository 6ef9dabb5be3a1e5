import Dataflow.Datum
import Dataflow.Hex
import Dataflow.Word

/-!
# Bit strings

Strings of bits, the least significant one first. A value of a type is laid out lane after lane,
each at the lane width. Positions in a bit string are 32-bit words.
-/

namespace Dataflow

structure BitString where
  bits : List Bool := []
  deriving DecidableEq, Repr, Inhabited

namespace BitString

def empty : BitString := {}

def length (s : BitString) : Nat :=
  s.bits.length

instance : Append BitString := ⟨fun s t => ⟨s.bits ++ t.bits⟩⟩

/-- The low `width` bits of a word, which has 128 of them. -/
def ofWord (width a : Nat) : BitString :=
  ⟨(List.range width).map fun i => i < Word.maxBits && a.testBit i⟩

/-- The number whose binary digits are the given bits, the lowest first. -/
def number : List Bool → Nat
  | [] => 0
  | b :: bs => b.toNat + 2 * number bs

/-- Appends the low `width` bits of `a`. -/
def push (s : BitString) (a width : Nat) : BitString :=
  s ++ ofWord width a

/-- Appends the lanes of `d`, laid out as `t`. -/
def pushDatum (s : BitString) (d : Datum) (t : ValueType) : BitString :=
  d.lanes.foldl (·.push · t.laneBits) s

/-- The layout of `d` as `t`. -/
def ofDatum (d : Datum) (t : ValueType) : BitString :=
  empty.pushDatum d t

/-- The word of the `width` bits from `offset` on, at most 128; bits past the end are zero. -/
def read (s : BitString) (offset width : Nat) : Except Fault Nat :=
  let width := min width Word.maxBits
  if width = 0 ∨ offset + width ≤ Word.bound 32 then .ok (number ((s.bits.drop offset).take width))
  else .error .overflow

/-- The bits from `offset` on as a datum of type `t`. -/
def readDatum (s : BitString) (offset : Nat) (t : ValueType) : Except Fault Datum := do
  Datum.ofLanes t (← (List.range t.laneCount).mapM fun i =>
    s.read (offset + i * t.laneBits) t.laneBits)

/-- Exactly `width` bits: cut, or filled with zeros. -/
def resize (s : BitString) (width : Nat) : BitString :=
  ⟨s.bits.take width ++ List.replicate (width - s.length) false⟩

/-- The bits in words of 64, the least significant word first. -/
def words (s : BitString) : List Nat :=
  (List.range ((s.length + 63) / 64)).map fun k => number ((s.bits.drop (64 * k)).take 64)

/-- The length and the words. -/
def text (s : BitString) : String :=
  s!"BitBuffer[{s.length}](" ++ " ".intercalate (s.words.map (Hex.padded 16)) ++ ")"

end BitString

end Dataflow
