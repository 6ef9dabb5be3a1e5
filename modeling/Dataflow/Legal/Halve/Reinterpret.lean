import Dataflow.Legal.Halve.Arithmetic
import Dataflow.Legal.Output

/-!
# Integers in two halves: reinterpretation and use

Wide integers made of the bits of other values, and the nodes with legal results that read wide
integers.
-/

namespace Dataflow.Legal.Halve

open Edit

def ofBitcast (T : Target) (id : NodeId) (slot : Nat) : Edit (Value × Value) := do
  let half ← halfType T id slot
  let v ← operand id 0
  let source ← typeOf v
  let castParts (parts : Value × Value) : Edit (Value × Value) := do
    let (lo, hi) := parts
    if (← typeOf lo).bits ≠ half.bits then obstacle id .bitcastPartsDiffer
    let lo ← cast .bitcast lo half
    let hi ← cast .bitcast hi half
    return (lo, hi)
  match T.classify source with
  | .promoteFloat => cutInteger (← promoted v) half
  | .scalarize =>
    let wide ← resultType id slot
    let element ← soleLane v
    cutInteger (← bitcast element wide) half
  | .legal =>
    if source.lanes = 2 ∧ source.laneBits = half.bits then
      let lo ← extractLane T v 0
      let hi ← extractLane T v 1
      let lo ← bitcast lo half
      let hi ← bitcast hi half
      return (lo, hi)
    else obstacle id .bitcastSourceUnsplittable
  | .expandFloat => castParts (← floatParts v)
  | .split => castParts (← vectorHalves v)
  | _ => obstacle id .bitcastSourceUnsplittable

/-- The indices of the halves of a lane among lanes of half the width. -/
def halfLaneIndices (index : Value) : Edit (Value × Value) := do
  let t ← typeOf index
  match ← constant? index with
  | some k =>
    if Word.bound Word.maxBits ≤ 2 * k then throw (.fault .overflow)
    let lo ← constant (2 * k) t
    let hi ← constant (2 * k + 1) t
    return (lo, hi)
  | none =>
    let one ← constant 1 t
    let doubled ← int .shl index one
    return (doubled, ← int .add doubled one)

/-- The halves of a lane are adjacent lanes of the vector reinterpreted with lanes of half the
width. -/
def ofExtract (T : Target) (id : NodeId) (slot : Nat) : Edit (Value × Value) := do
  let half ← halfType T id slot
  let vector ← operand id 0
  let index ← operand id 1
  let some narrow := half.vector? (2 * (← typeOf vector).lanes)
    | obstacle id .noVectorOfHalfLanes
  let lanes ← cast .bitcast vector narrow
  let (loIndex, hiIndex) ← halfLaneIndices index
  let lo ← extract lanes loIndex
  let hi ← extract lanes hiIndex
  return (lo, hi)

/-! ### Operands -/

def inTruncate (id : NodeId) : Edit Value := do
  let t ← resultType id 0
  let (lo, _) ← halves (← operand id 0)
  resize .any lo t

/-- The halves differ exactly when a bit of their differences is set. -/
def equality (c : Condition) (a b : Value × Value) (t : ValueType) : Edit Value := do
  let half ← typeOf a.1
  let lo ← int .xor a.1 b.1
  let hi ← int .xor a.2 b.2
  let difference ← int .or lo hi
  let zero ← constant 0 half
  setcc difference zero c t

/-- The high halves decide, and on a tie the low ones, unsigned. -/
def ordering (T : Target) (c : Condition) (a b : Value × Value) (t : ValueType) :
    Edit Value := do
  let flag := T.compareType (← typeOf a.1)
  let loCompare ← setcc a.1 b.1 c.toUnsigned flag
  let hiCompare ← setcc a.2 b.2 c flag
  let hiEqual ← setcc a.2 b.2 .eq flag
  let result ← select hiEqual loCompare hiCompare
  resize .zero result t

def inSetcc (T : Target) (id : NodeId) : Edit Value := do
  let t ← resultType id 0
  let c ← predicate id
  let (a, b) ← operandHalves id
  if c.isEquality then equality c a b t else ordering T c a b t

def inSelect (T : Target) (id : NodeId) (i : Nat) : Edit Value := do
  if i ≠ 0 then obstacle id .expandSelectArm
  let (lo, hi) ← halves (← operand id 0)
  let half ← typeOf lo
  let any ← int .or lo hi
  let zero ← constant 0 half
  let cond ← setcc any zero .ne (T.compareType half)
  let a ← operand id 1
  let b ← operand id 2
  select cond a b

/-- A legal scalar is the pair of the halves; a legal vector of two lanes of their width has them as
its lanes. -/
def inBitcast (id : NodeId) : Edit Value := do
  let t ← resultType id 0
  let (lo, hi) ← halves (← operand id 0)
  let half ← typeOf lo
  if !t.isVector then buildPair lo hi t
  else if t.lanes = 2 ∧ t.laneBits = half.bits then
    let lo ← bitcast lo t.scalar
    let hi ← bitcast hi t.scalar
    buildVector [lo, hi] t
  else obstacle id .bitcastResultNotFromParts

def inOutput (id : NodeId) (i : Nat) : Edit Successor := do
  let (lo, hi) ← halves (← operand id i)
  outputOf id i [lo, hi]

end Dataflow.Legal.Halve
