import Dataflow.Legal.Split.Lanes

/-!
# Vectors in two halves: reinterpretation

The bits of a value as two halves, in whatever form its own conversion left them, and the other
way round.
-/

namespace Dataflow.Legal.Split

open Edit

/-- The low `bits` bits of a value as two integers of half that width. -/
def halvesAsIntegers (id : NodeId) (v : Value) (bits : Nat) : Edit (Value × Value) := do
  let t ← typeOf v
  match ValueType.int? t.bits, ValueType.int? (bits / 2) with
  | some whole, some half => cutInteger (← bitcast v whole) half
  | _, _ => obstacle id .bitcastSourceWithoutIntegerHalves

/-- The halves of a legal vector, lane by lane. -/
def legalHalves (T : Target) (id : NodeId) (v : Value) (t : ValueType) :
    Edit (Value × Value) := do
  let some half := t.half? | obstacle id .bitcastSourceWithoutHalf
  let lanes := List.range t.lanes
  let lo ← (lanes.take (t.lanes / 2)).mapM (extractLane T v)
  let lo ← buildVector lo half
  let hi ← (lanes.drop (t.lanes / 2)).mapM (extractLane T v)
  let hi ← buildVector hi half
  return (lo, hi)

/-- The low and high halves of the bits of a value. -/
def bitHalves (T : Target) (id : NodeId) (v : Value) : Edit (Value × Value) := do
  let t ← typeOf v
  match T.classify t with
  | .split => vectorHalves v
  | .expandInteger => halves v
  | .expandFloat => floatParts v
  | .legal => if t.isVector then legalHalves T id v t else halvesAsIntegers id v t.bits
  | .promoteInteger | .promoteFloat => halvesAsIntegers id (← promoted v) t.bits
  | .scalarize => halvesAsIntegers id (← soleLane v) t.bits

def ofBitcast (T : Target) (id : NodeId) (slot : Nat) : Edit (Value × Value) := do
  let half ← halfType T id slot
  let (lo, hi) ← bitHalves T id (← operand id 0)
  if (← typeOf lo).bits ≠ half.bits then obstacle id .bitcastSourceHalvesDiffer
  let lo ← bitcast lo half
  let hi ← bitcast hi half
  return (lo, hi)

/-- A vector made of two values of half its width. -/
def ofPair (T : Target) (id : NodeId) (slot : Nat) : Edit (Value × Value) := do
  let half ← halfType T id slot
  let lo ← operand id 0
  let hi ← operand id 1
  if (← typeOf lo).bits ≠ half.bits then obstacle id .pairHalvesDiffer
  if (← typeOf hi).bits ≠ half.bits then obstacle id .pairHalvesDiffer
  let lo ← bitcast lo half
  let hi ← bitcast hi half
  return (lo, hi)

/-! ### Operands -/

/-- A legal scalar is joined from the halves as integers. -/
def scalarFromHalves (id : NodeId) (lo hi : Value) (t : ValueType) : Edit Value := do
  match ValueType.int? t.bits, ValueType.int? (t.bits / 2) with
  | some whole, some half =>
    let lo ← bitcast lo half
    let hi ← bitcast hi half
    bitcast (← joinHalves lo hi whole) t
  | _, _ => obstacle id .bitcastResultWithoutIntegerHalves

/-- A legal vector is rebuilt lane by lane from the halves, recast to its half. -/
def vectorFromHalves (T : Target) (id : NodeId) (lo hi : Value) (t : ValueType) :
    Edit Value := do
  let some half := t.half? | obstacle id .bitcastResultWithoutHalf
  let lanes := List.range half.lanes
  let lo ← bitcast lo half
  let lows ← lanes.mapM (extractLane T lo)
  let hi ← bitcast hi half
  let highs ← lanes.mapM (extractLane T hi)
  buildVector (lows ++ highs) t

def inBitcast (T : Target) (id : NodeId) : Edit Value := do
  let t ← resultType id 0
  let (lo, hi) ← vectorHalves (← operand id 0)
  if t.isVector then vectorFromHalves T id lo hi t else scalarFromHalves id lo hi t

end Dataflow.Legal.Split
