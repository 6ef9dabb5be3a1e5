import Dataflow.Legal.Output
import Dataflow.Legal.Resize

/-!
# Vectors of one lane

A vector of one lane is replaced by its element.
-/

namespace Dataflow.Legal.Scalarize

open Edit

def elementType (id : NodeId) (slot : Nat) : Edit ValueType := do
  return (← resultType id slot).scalar

def ofArgument (id : NodeId) (slot : Nat) : Edit Value := do
  let t ← elementType id slot
  let (index, offset) ← argumentPosition id
  argument index offset t

def ofUndef (id : NodeId) (slot : Nat) : Edit Value := do
  undef (← elementType id slot)

def ofUnary (id : NodeId) : Edit Value := do
  let op := (← node id).opcode
  let v ← soleLane (← operand id 0)
  unary op v

def ofBinary (id : NodeId) : Edit Value := do
  let op := (← node id).opcode
  let a ← operand id 0
  let b ← operand id 1
  let a ← soleLane a
  let b ← soleLane b
  binary op a b

def ofSelect (id : NodeId) : Edit Value := do
  let cond ← operand id 0
  let a ← operand id 1
  let b ← operand id 2
  let a ← soleLane a
  let b ← soleLane b
  select cond a b

def ofBuildVector (id : NodeId) : Edit Value :=
  operand id 0

/-- The only lane is overwritten, whatever the index. -/
def ofInsert (id : NodeId) : Edit Value :=
  operand id 1

/-- Lane `lane` of the joined inputs of a shuffle. -/
def shuffledLane (T : Target) (id : NodeId) (lane : Nat) : Edit Value := do
  let a ← operand id 0
  let b ← operand id 1
  let lanes := (← typeOf a).lanes
  let (source, lane) := if lane < lanes then (a, lane) else (b, lane - lanes)
  if T.classify (← typeOf source) = .scalarize then soleLane source
  else extractLane T source lane

def ofShuffle (T : Target) (id : NodeId) (slot : Nat) : Edit Value := do
  let t ← elementType id slot
  match (← node id).mask? with
  | some (some lane :: _) => shuffledLane T id lane
  | _ => undef t

def ofBitcast (T : Target) (id : NodeId) (slot : Nat) : Edit Value := do
  let t ← elementType id slot
  let source ← operand id 0
  let source ← if T.classify (← typeOf source) = .scalarize then soleLane source else pure source
  bitcast source t

/-! ### Operands -/

def inExtract (id : NodeId) (i : Nat) : Edit Value := do
  if i ≠ 0 then obstacle id .scalarizeExtractIndex
  let t ← resultType id 0
  let element ← soleLane (← operand id 0)
  resize .any element t

def inBitcast (id : NodeId) : Edit Value := do
  let t ← resultType id 0
  bitcast (← soleLane (← operand id 0)) t

def inOutput (id : NodeId) (i : Nat) : Edit Successor := do
  outputOf id i [← soleLane (← operand id i)]

end Dataflow.Legal.Scalarize
